import LineScript.Proofs.Program.BlockScopes
import LineScript.Proofs.Program.Rejection

/-!
# Names declared twice

A scope takes a variable of a name once, and a function of a name once. The second statement that
would declare it in the same block is refused, unless something before it is refused already.
-/

namespace LineScript

/-- What a statement gives to its scope. -/
inductive Declaration where
  | ofVariable (name : String)
  | ofFunction (name : String)
deriving DecidableEq, Repr

def Declaration.name : Declaration → String
  | ofVariable name | ofFunction name => name

/-- Whether a scope has what a declaration would give to it. -/
def ScopeTree.binds (tree : ScopeTree) (scope : ScopeId) : Declaration → Bool
  | .ofVariable name => (tree.local? scope name).isSome
  | .ofFunction name => (tree.localFunction? scope name).isSome

def Statement.declaration? (s : Statement) : Option Declaration :=
  match s.keyword, Operand.classify s.operands with
  | "number", [.name name] | "string", [.name name] => some (.ofVariable name)
  | "function", operands =>
    (Layout.readHeader operands).toOption.map fun (name, _) ↦ .ofFunction name
  | _, _ => none

namespace Statement

variable {s : Statement} {name : String}

theorem keyword_of_ofVariable (h : s.declaration? = some (.ofVariable name)) :
    (∃ kind : Kind, s.keyword = kind.keyword) ∧ Operand.classify s.operands = [.name name] := by
  unfold declaration? at h
  split at h
  · rename_i hkeyword hoperands
    cases h
    exact ⟨⟨.number, hkeyword⟩, hoperands⟩
  · rename_i hkeyword hoperands
    cases h
    exact ⟨⟨.text, hkeyword⟩, hoperands⟩
  · obtain ⟨header, -, hsame⟩ := Option.map_eq_some_iff.1 h
    cases hsame
  · cases h

theorem keyword_of_ofFunction (h : s.declaration? = some (.ofFunction name)) :
    s.keyword = "function" ∧ ∃ parameters,
      Layout.readHeader (Operand.classify s.operands) = .ok (name, parameters) := by
  unfold declaration? at h
  split at h
  · cases h
  · cases h
  · rename_i hkeyword
    obtain ⟨⟨found, parameters⟩, hheader, hsame⟩ := Option.map_eq_some_iff.1 h
    cases hsame
    refine ⟨hkeyword, parameters, ?_⟩
    cases hread : Layout.readHeader (Operand.classify s.operands) with
    | error fault =>
      rw [hread] at hheader
      cases hheader
    | ok header =>
      rw [hread] at hheader
      cases hheader
      rfl
  · cases h

end Statement

namespace Layout

variable {layout after : Layout} {statements : List Statement} {statement : Statement}
  {scope : ScopeId} {declaration : Declaration}

/-- A scope keeps what it has. -/
theorem Placement.binds_eq {keyword : String} {operands : List Operand} {form : Form}
    (h : layout.Placement keyword operands after form)
    (hbinds : layout.scopes.binds scope declaration = true) :
    after.scopes.binds scope declaration = true := by
  cases declaration with
  | ofVariable name =>
    obtain ⟨value, hvalue⟩ := Option.isSome_iff_exists.1 hbinds
    exact Option.isSome_iff_exists.2 ⟨value, h.local?_eq hvalue⟩
  | ofFunction name =>
    cases h with
    | declare _ _ hdeclare =>
      obtain ⟨-, rfl⟩ := ScopeTree.declare_eq_ok hdeclare
      rwa [ScopeTree.binds, ScopeTree.localFunction?_bindIn]
    | output | input | call | assign | close => exact hbinds
    | loop | branch => exact (congrArg Option.isSome ScopeTree.localFunction?_addChild).trans hbinds
    | function _ _ hdeclare =>
      obtain ⟨-, -, -, hfunction⟩ := ScopeTree.declareFunction_eq_ok hdeclare
      refine (congrArg Option.isSome ScopeTree.localFunction?_addChild).trans ?_
      rw [hfunction]
      split
      · rfl
      · exact hbinds

/-- The scope of a statement has what the statement declares once it is placed. -/
theorem Placed.binds_of_place (h : Placed statements layout)
    (hplace : layout.place statement = .ok after)
    (hdeclaration : statement.declaration? = some declaration) :
    after.scopes.binds layout.scope declaration = true := by
  have hplaced := h.place hplace
  obtain ⟨interpreted, form, hplacement, rfl⟩ := exists_placement hplace
  cases declaration with
  | ofVariable name =>
    obtain ⟨⟨kind, hkeyword⟩, hoperands⟩ := Statement.keyword_of_ofVariable hdeclaration
    obtain ⟨rfl, -⟩ := (hplacement.declares_iff kind).1 hkeyword
    have hlocal := hplaced.local?_of_declare Array.getElem?_push_size rfl hoperands
    exact Option.isSome_iff_exists.2 ⟨_, hlocal⟩
  | ofFunction name =>
    obtain ⟨hkeyword, parameters, hheader⟩ := Statement.keyword_of_ofFunction hdeclaration
    rw [hkeyword] at hplacement
    cases hplacement with
    | function _ hfound hdeclare =>
      rw [hheader] at hfound
      cases hfound
      obtain ⟨-, -, -, hfunction⟩ := ScopeTree.declareFunction_eq_ok hdeclare
      refine (congrArg Option.isSome ScopeTree.localFunction?_addChild).trans ?_
      rw [hfunction, if_pos ⟨⟨rfl, rfl⟩, h.scope_lt_count⟩]
      rfl
    | @declare kind _ _ hsame => cases kind <;> exact absurd hsame (by decide)
    | output hsame | input hsame | loop hsame | branch hsame | call hsame | close hsame =>
      exact absurd hsame (by decide)
    | assign hsame => exact absurd hsame (by decide)

/-- A scope takes no second declaration. -/
theorem place_of_binds (hbinds : layout.scopes.binds layout.scope declaration = true)
    (hdeclaration : statement.declaration? = some declaration) :
    layout.place statement = .error ⟨statement.location, .duplicate declaration.name⟩ := by
  have hinterpret : layout.interpret statement.keyword (Operand.classify statement.operands) =
      .error (.duplicate declaration.name) := by
    cases declaration with
    | ofVariable name =>
      obtain ⟨⟨kind, hkeyword⟩, hoperands⟩ := Statement.keyword_of_ofVariable hdeclaration
      have hdeclare : layout.scopes.declare layout.scope name kind = .error ⟨name⟩ := if_pos hbinds
      have hvariable : layout.placeVariable kind [.name name] = .error (.duplicate name) := by
        rw [placeVariable, hdeclare]
      rw [hkeyword, hoperands]
      cases kind with
      | number => exact hvariable
      | text => exact hvariable
    | ofFunction name =>
      obtain ⟨hkeyword, parameters, hheader⟩ := Statement.keyword_of_ofFunction hdeclaration
      have hdeclare : layout.scopes.declareFunction layout.scope name layout.drafts.size =
          .error ⟨name⟩ := if_pos hbinds
      rw [hkeyword]
      change layout.placeFunction _ = _
      rw [placeFunction, hheader]
      dsimp only
      rw [hdeclare]
      rfl
  unfold place
  dsimp only
  rw [hinterpret]
  rfl

/-- The scope of what is placed next is that of the block around it. -/
theorem Placed.scope_eq (h : Placed statements layout) :
    layout.scope = Bracket.scopeAt (statements.map Statement.bracket) statements.length := by
  have hancestors := h.scoped.ancestors_scope
  rw [List.length_map] at hancestors
  exact Bracket.eq_scopeAt_of_ancestors hancestors

/-- Every declaration that was placed is in the scope of its block. -/
theorem Placed.binds (h : Placed statements layout) {id : Nat}
    (hstatement : statements[id]? = some statement)
    (hdeclaration : statement.declaration? = some declaration) :
    layout.scopes.binds (Bracket.scopeAt (statements.map Statement.bracket) id) declaration =
      true := by
  induction h with
  | start => exact absurd hstatement (by simp)
  | @place earlier last before _ hplaced hplace ih =>
    have hle : id ≤ earlier.length := by
      have hlt := (List.getElem?_eq_some_iff.1 hstatement).1
      rw [List.length_append, List.length_singleton] at hlt
      exact Nat.le_of_lt_succ hlt
    rw [List.map_append, Bracket.scopeAt_append (by simpa using hle)]
    rcases Nat.lt_or_eq_of_le hle with hlt | rfl
    · rw [List.getElem?_append_left hlt] at hstatement
      obtain ⟨interpreted, form, hplacement, rfl⟩ := exists_placement hplace
      exact hplacement.binds_eq (ih hstatement)
    · rw [List.getElem?_append_right (Nat.le_refl _), Nat.sub_self] at hstatement
      cases hstatement
      rw [← hplaced.scope_eq]
      exact hplaced.binds_of_place hplace hdeclaration

/-- A prefix that the first pass refuses is refused at a position of it. -/
theorem StopsPlacing.of_take {count position : Nat} {error : LinkError}
    (h : StopsPlacing (statements.take count) position error) :
    position < count ∧ StopsPlacing statements position error := by
  obtain ⟨layout, statement, hbefore, hstatement, hplace⟩ := h
  rw [List.getElem?_take] at hstatement
  split at hstatement
  · rename_i hlt
    rw [List.take_take, Nat.min_eq_left (Nat.le_of_lt hlt)] at hbefore
    exact ⟨hlt, layout, statement, hbefore, hstatement, hplace⟩
  · cases hstatement

/-- The second of two statements in one block that declare the same is refused, unless something
before it is. -/
theorem exists_stopsPlacing_of_declaration {first second : Nat} {earlier later : Statement}
    (hlt : first < second) (hearlier : statements[first]? = some earlier)
    (hlater : statements[second]? = some later)
    (hblock : (Bracket.openAt (statements.map Statement.bracket) first).head? =
      (Bracket.openAt (statements.map Statement.bracket) second).head?)
    (hdeclaration : earlier.declaration? = some declaration)
    (hagain : later.declaration? = some declaration) :
    ∃ position error, StopsPlacing statements position error ∧
      (position < second ∨ position = second ∧ error.fault = .duplicate declaration.name) := by
  cases hlayout : ofStatements (statements.take second) with
  | error error =>
    obtain ⟨position, hstops⟩ := exists_stopsPlacing hlayout
    obtain ⟨hbefore, hstops⟩ := hstops.of_take
    exact ⟨position, error, hstops, .inl hbefore⟩
  | ok layout =>
    have hplaced := placed_of_ofStatements hlayout
    have hsecond := (List.getElem?_eq_some_iff.1 hlater).1
    have hlength : ((statements.map Statement.bracket).take second).length = second := by
      rw [List.length_take, List.length_map, Nat.min_eq_left (Nat.le_of_lt hsecond)]
    have hscope : layout.scope = Bracket.scopeAt (statements.map Statement.bracket) first := by
      calc
        layout.scope = Bracket.scopeAt ((statements.map Statement.bracket).take second) second := by
          rw [hplaced.scope_eq, List.length_take, Nat.min_eq_left (Nat.le_of_lt hsecond),
            List.map_take]
        _ = Bracket.scopeAt (statements.map Statement.bracket) second :=
          Bracket.scopeAt_take second (Nat.le_of_eq hlength.symm)
        _ = Bracket.scopeAt (statements.map Statement.bracket) first := by
          rw [Bracket.scopeAt_eq, Bracket.scopeAt_eq, hblock]
    have hbinds : layout.scopes.binds layout.scope declaration = true := by
      rw [hscope, ← Bracket.scopeAt_take second (by omega), ← List.map_take]
      exact hplaced.binds ((List.getElem?_take_of_lt hlt).trans hearlier) hdeclaration
    exact ⟨second, _, ⟨layout, later, hlayout, hlater, place_of_binds hbinds hagain⟩,
      .inr ⟨rfl, rfl⟩⟩

end Layout

/--
For every program that links, the scopes mirror the blocks and bind what is declared in them. Lines
of which two would give the same variable or the same function to one scope do not link: they are
refused at the second of the two, for that reason, or before it.
-/
theorem scopes_of_linkLines (lines : List (List Word)) :
    (∀ linked, linkLines lines = .ok linked → MirrorsBlocks linked) ∧
    ∀ (first second : Nat) (earlier later : Statement) (declaration : Declaration),
      first < second → (statementsOfLines lines)[first]? = some earlier →
      (statementsOfLines lines)[second]? = some later →
      (Bracket.openAt (bracketsOfLines lines) first).head? =
        (Bracket.openAt (bracketsOfLines lines) second).head? →
      earlier.declaration? = some declaration → later.declaration? = some declaration →
      ∃ position error, linkLines lines = .error error ∧
        Layout.StopsPlacing (statementsOfLines lines) position error ∧
        (position < second ∨ position = second ∧
          error.fault = .duplicate declaration.name) := by
  refine ⟨fun linked hlink ↦ mirrorsBlocks_of_link hlink, ?_⟩
  intro first second earlier later declaration hlt hearlier hlater hblock hdeclaration hagain
  obtain ⟨position, error, hstops, hwhere⟩ := Layout.exists_stopsPlacing_of_declaration hlt
    hearlier hlater hblock hdeclaration hagain
  exact ⟨position, error, hstops.link_eq, hstops, hwhere⟩

end LineScript
