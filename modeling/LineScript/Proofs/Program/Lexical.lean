import LineScript.Proofs.Program.Duplicates
import LineScript.Proofs.Program.Signatures

/-!
# Names in their places

What a name means to a statement can be told from the statements before it alone. The blocks around
the statement are searched from the innermost to the program itself, each for what the statements
directly in it declare and, if it is the body of a function, for the parameters. The first pass
keeps a stack of open blocks and a tree of scopes instead, and comes to the same answers.
-/

namespace LineScript

theorem findSome?_congr {α β : Type} {f g : α → Option β} {list : List α}
    (h : ∀ a ∈ list, f a = g a) : list.findSome? f = list.findSome? g := by
  calc
    list.findSome? f = (list.filterMap f).head? := List.head?_filterMap.symm
    _ = (list.filterMap g).head? := by rw [List.filterMap_congr h]
    _ = list.findSome? g := List.head?_filterMap

/-- The scope of a block, which is told by its header, or of the program itself. -/
def Bracket.scopeOf (word : List Bracket) (block : Option Nat) : ScopeId :=
  (block.map (blockScope word)).getD rootScope

/-- No two blocks have the same scope. -/
theorem Bracket.scopeOf_injective {word : List Bracket} {block other : Option Nat}
    (hblock : ∀ header ∈ block, word[header]? = some .opens)
    (hother : ∀ header ∈ other, word[header]? = some .opens)
    (h : scopeOf word block = scopeOf word other) : block = other := by
  cases block with
  | none =>
    cases other with
    | none => rfl
    | some header => exact absurd h.symm (Nat.succ_ne_zero _)
  | some header =>
    cases other with
    | none => exact absurd h (Nat.succ_ne_zero _)
    | some header' =>
      exact congrArg some (blockScope_injective (hblock header rfl) (hother header' rfl) h)

namespace Statement

def variableOf? (s : Statement) : Option (String × Kind) :=
  match Kind.ofKeyword? s.keyword, Operand.classify s.operands with
  | some kind, [.name name] => some (name, kind)
  | _, _ => none

def functionOf? (s : Statement) : Option (String × List Parameter) :=
  if s.keyword = "function" then (Layout.readHeader (Operand.classify s.operands)).toOption
  else none

variable {s : Statement} {name : String}

theorem variableOf?_eq_some_iff {kind : Kind} : s.variableOf? = some (name, kind) ↔
    s.keyword = kind.keyword ∧ Operand.classify s.operands = [.name name] := by
  unfold variableOf?
  constructor
  · intro h
    split at h
    · rename_i found other hkind hoperands
      cases h
      refine ⟨?_, hoperands⟩
      unfold Kind.ofKeyword? at hkind
      split at hkind
      · rename_i hkeyword
        cases hkind
        exact hkeyword
      · split at hkind
        · rename_i hkeyword
          cases hkind
          exact hkeyword
        · cases hkind
    · cases h
  · rintro ⟨hkeyword, hoperands⟩
    rw [hkeyword, Kind.ofKeyword?_keyword, hoperands]

theorem functionOf?_eq_some_iff {parameters : List Parameter} :
    s.functionOf? = some (name, parameters) ↔ s.keyword = "function" ∧
      Layout.readHeader (Operand.classify s.operands) = .ok (name, parameters) := by
  unfold functionOf?
  split
  · rename_i hkeyword
    cases Layout.readHeader (Operand.classify s.operands) <;> simp [Except.toOption, hkeyword]
  · rename_i hkeyword
    simp [hkeyword]

end Statement

namespace Lexical

variable (earlier : List Statement)

/-- The block that the statement at a position belongs to directly: that of a header, or else the
program itself. -/
def blockOf (position : Nat) : Option Nat :=
  (Bracket.openAt (earlier.map Statement.bracket) position).head?

/-- The blocks around what comes next, the innermost first, and the program itself. -/
def blocks : List (Option Nat) :=
  (Bracket.openAt (earlier.map Statement.bracket) earlier.length).map some ++ [none]

/-- The kind of the variable that a statement directly in a block declares under a name. -/
def variableKind? (name : String) (block : Option Nat) : Option Kind :=
  earlier.zipIdx.findSome? fun (s, id) ↦
    if blockOf earlier id = block then
      (s.variableOf?.filter fun (declared, _) ↦ declared == name).map Prod.snd
    else none

/-- The kind of the parameter with a name, if a block is the body of a function that has one. -/
def parameterKind? (name : String) (block : Option Nat) : Option Kind :=
  ((block.bind fun header ↦ earlier[header]?).bind Statement.functionOf?).bind
    fun (_, parameters) ↦ (parameters.find? (·.name == name)).map Parameter.kind

/-- The kind that a block gives to a name: its variable's, or else its parameter's. -/
def kindIn? (name : String) (block : Option Nat) : Option Kind :=
  (variableKind? earlier name block).or (parameterKind? earlier name block)

/-- The kind that a name has for what comes next: that of the innermost block that gives it one. -/
def kind? (name : String) : Option Kind :=
  (blocks earlier).findSome? (kindIn? earlier name)

/-- The header of the function that is declared under a name directly in a block. -/
def functionIn? (name : String) (block : Option Nat) : Option Nat :=
  earlier.zipIdx.findSome? fun (s, id) ↦
    if blockOf earlier id = block ∧ s.functionOf?.map Prod.fst = some name then some id else none

/-- The header of the function that a name means for what comes next: that of the innermost block
that declares one. -/
def function? (name : String) : Option Nat :=
  (blocks earlier).findSome? (functionIn? earlier name)

variable {earlier : List Statement} {name : String} {block : Option Nat}

theorem exists_of_variableKind? {kind : Kind} (h : variableKind? earlier name block = some kind) :
    ∃ (id : Nat) (s : Statement), earlier[id]? = some s ∧ blockOf earlier id = block ∧
      s.variableOf? = some (name, kind) := by
  obtain ⟨⟨s, id⟩, hmem, hfound⟩ := List.exists_of_findSome?_eq_some h
  dsimp only at hfound
  split at hfound
  · rename_i hblock
    obtain ⟨⟨declared, found⟩, hvariable, hsame⟩ := Option.map_eq_some_iff.1 hfound
    obtain ⟨hdeclared, hname⟩ := Option.filter_eq_some_iff.1 hvariable
    cases hsame
    dsimp only at hname
    rw [eq_of_beq hname] at hdeclared
    exact ⟨id, s, List.mem_zipIdx_iff_getElem?.1 hmem, hblock, hdeclared⟩
  · cases hfound

theorem variableKind?_ne_none {id : Nat} {s : Statement} {kind : Kind}
    (hstatement : earlier[id]? = some s) (hblock : blockOf earlier id = block)
    (hvariable : s.variableOf? = some (name, kind)) : variableKind? earlier name block ≠ none := by
  intro hnone
  have hfound := List.findSome?_eq_none_iff.1 hnone (s, id)
    (List.mem_zipIdx_iff_getElem?.2 hstatement)
  dsimp only at hfound
  rw [if_pos hblock, hvariable] at hfound
  simp at hfound

theorem exists_of_functionIn? {header : Nat} (h : functionIn? earlier name block = some header) :
    ∃ s parameters, earlier[header]? = some s ∧ blockOf earlier header = block ∧
      s.functionOf? = some (name, parameters) := by
  obtain ⟨⟨s, id⟩, hmem, hfound⟩ := List.exists_of_findSome?_eq_some h
  dsimp only at hfound
  split at hfound
  · rename_i hhere
    obtain ⟨hblock, hname⟩ := hhere
    cases hfound
    obtain ⟨⟨declared, parameters⟩, hfunction, rfl⟩ := Option.map_eq_some_iff.1 hname
    exact ⟨s, parameters, List.mem_zipIdx_iff_getElem?.1 hmem, hblock, hfunction⟩
  · cases hfound

theorem functionIn?_ne_none {id : Nat} {s : Statement} {parameters : List Parameter}
    (hstatement : earlier[id]? = some s) (hblock : blockOf earlier id = block)
    (hfunction : s.functionOf? = some (name, parameters)) :
    functionIn? earlier name block ≠ none := by
  intro hnone
  have hfound := List.findSome?_eq_none_iff.1 hnone (s, id)
    (List.mem_zipIdx_iff_getElem?.2 hstatement)
  dsimp only at hfound
  rw [if_pos ⟨hblock, by rw [hfunction]; rfl⟩] at hfound
  cases hfound

/-- Around what comes next are only blocks whose headers came before it. -/
theorem opens_of_mem_blocks (h : block ∈ blocks earlier) :
    ∀ header ∈ block, (earlier.map Statement.bracket)[header]? = some .opens := by
  rintro header rfl
  rcases List.mem_append.1 h with hopen | hroot
  · obtain ⟨found, hfound, hsame⟩ := List.mem_map.1 hopen
    cases hsame
    exact (Bracket.getElem?_of_mem_openAt hfound).2
  · exact absurd (List.mem_singleton.1 hroot) (by simp)

theorem opens_of_blockOf {id : Nat} :
    ∀ header ∈ blockOf earlier id, (earlier.map Statement.bracket)[header]? = some .opens :=
  fun _ hmem ↦ (Bracket.getElem?_of_mem_openAt (List.mem_of_mem_head? hmem)).2

end Lexical

/-! ## What the first pass keeps -/

namespace Layout

variable {layout before after : Layout} {earlier : List Statement} {s : Statement} {id : Nat}
  {form : Form} {name : String} {block : Option Nat}

theorem Placement.variableOf?_iff
    (h : before.Placement s.keyword (Operand.classify s.operands) after form) {kind : Kind} :
    s.variableOf? = some (name, kind) ↔
      form = .declare kind ∧ Operand.classify s.operands = [.name name] := by
  rw [Statement.variableOf?_eq_some_iff, h.declares_iff kind]
  constructor
  · rintro ⟨⟨hform, -⟩, hoperands⟩
    exact ⟨hform, hoperands⟩
  · rintro ⟨hform, hoperands⟩
    exact ⟨⟨hform, name, hoperands⟩, hoperands⟩

theorem Placement.functionOf?_iff
    (h : before.Placement s.keyword (Operand.classify s.operands) after form)
    {parameters : List Parameter} :
    s.functionOf? = some (name, parameters) ↔
      ∃ bodyScope, form = .function ⟨name, parameters, bodyScope⟩ := by
  rw [Statement.functionOf?_eq_some_iff]
  constructor
  · rintro ⟨hkeyword, hheader⟩
    rw [hkeyword] at h
    cases h with
    | function _ hfound _ =>
      rw [hheader] at hfound
      cases hfound
      exact ⟨_, rfl⟩
    | @declare kind _ _ hsame => cases kind <;> exact absurd hsame (by decide)
    | output hsame | input hsame | loop hsame | branch hsame | call hsame | close hsame
    | assign hsame => exact absurd hsame (by decide)
  · rintro ⟨bodyScope, rfl⟩
    cases h with
    | function hkeyword hheader _ => exact ⟨hkeyword, hheader⟩

/-- A function keeps the header it was declared at, whatever is placed after it. -/
theorem Placement.localFunction?_kept {keyword : String} {operands : List Operand}
    (h : layout.Placement keyword operands after form) {scope : ScopeId} {header : NodeId}
    (hlocal : layout.scopes.localFunction? scope name = some header) :
    after.scopes.localFunction? scope name = some header := by
  cases h with
  | declare _ _ hdeclare =>
    obtain ⟨-, rfl⟩ := ScopeTree.declare_eq_ok hdeclare
    exact ScopeTree.localFunction?_bindIn.trans hlocal
  | output | input | call | assign | close => exact hlocal
  | loop | branch => exact ScopeTree.localFunction?_addChild.trans hlocal
  | function _ _ hdeclare =>
    obtain ⟨-, -, -, hfunction⟩ := ScopeTree.declareFunction_eq_ok hdeclare
    refine ScopeTree.localFunction?_addChild.trans ?_
    rw [hfunction, if_neg, hlocal]
    rintro ⟨⟨rfl, rfl⟩, -⟩
    -- The declaration would have been refused.
    unfold ScopeTree.declareFunction at hdeclare
    rw [hlocal, Option.isSome_some, if_pos rfl] at hdeclare
    cases hdeclare

/-- A function is found under its name in the scope of its header. -/
theorem Placed.localFunction?_of_function (h : Placed earlier layout) {draft : Draft}
    (hdraft : layout.drafts[id]? = some draft) {signature : Signature}
    (hform : draft.form = .function signature) :
    layout.scopes.localFunction? draft.scope signature.name = some id := by
  induction h generalizing id draft with
  | start => exact absurd hdraft (by simp [Layout.start])
  | @place statements statement layout _ hplaced hplace ih =>
    obtain ⟨interpreted, form, hplacement, rfl⟩ := exists_placement hplace
    rw [Array.getElem?_push] at hdraft
    split at hdraft
    · rename_i hid
      cases hdraft
      dsimp only at hform
      subst hform
      cases hplacement with
      | function _ _ hdeclare =>
        obtain ⟨-, -, -, hfunction⟩ := ScopeTree.declareFunction_eq_ok hdeclare
        refine ScopeTree.localFunction?_addChild.trans ?_
        rw [hfunction, if_pos ⟨⟨rfl, rfl⟩, hplaced.scope_lt_count⟩, hid]
    · exact hplacement.localFunction?_kept (ih hdraft hform)

/-- What was placed for a statement, and where. -/
theorem Placed.exists_draft_of_statement (h : Placed earlier layout)
    (hstatement : earlier[id]? = some s) : ∃ (draft : Draft) (before after : Layout),
      layout.drafts[id]? = some draft ∧ draft.operands = Operand.classify s.operands ∧
      before.Placement s.keyword (Operand.classify s.operands) after draft.form ∧
      draft.scope = Bracket.scopeOf (earlier.map Statement.bracket) (Lexical.blockOf earlier id) := by
  obtain ⟨before, after, form, -, hplacement, hdraft⟩ := h.exists_draft hstatement
  refine ⟨_, before, after, hdraft, rfl, hplacement, ?_⟩
  have hancestors := h.scoped.ancestors_draft id _ hdraft
  rw [Bracket.eq_scopeAt_of_ancestors hancestors, Bracket.scopeAt_eq]
  rfl

theorem Placed.exists_statement_of_draft (h : Placed earlier layout) {draft : Draft}
    (hdraft : layout.drafts[id]? = some draft) : ∃ (s : Statement) (before after : Layout),
      earlier[id]? = some s ∧ draft.operands = Operand.classify s.operands ∧
      before.Placement s.keyword (Operand.classify s.operands) after draft.form ∧
      draft.scope = Bracket.scopeOf (earlier.map Statement.bracket) (Lexical.blockOf earlier id) := by
  obtain ⟨hlt, -⟩ := Array.getElem?_eq_some_iff.1 hdraft
  rw [h.size_drafts] at hlt
  have hstatement := List.getElem?_eq_getElem hlt
  obtain ⟨found, before, after, hfound, hrest⟩ := h.exists_draft_of_statement hstatement
  rw [hdraft] at hfound
  cases hfound
  exact ⟨_, before, after, hstatement, hrest⟩

/-- The scope of a block has the variables that statements directly in the block declare. -/
theorem Placed.variableKind?_eq (h : Placed earlier layout)
    (hblock : ∀ header ∈ block, (earlier.map Statement.bracket)[header]? = some .opens) :
    (layout.scopes.local? (Bracket.scopeOf (earlier.map Statement.bracket) block) name).map
      Value.kind = Lexical.variableKind? earlier name block := by
  cases hkind : Lexical.variableKind? earlier name block with
  | some kind =>
    obtain ⟨id, s, hstatement, rfl, hvariable⟩ := Lexical.exists_of_variableKind? hkind
    obtain ⟨draft, _, _, hdraft, hoperands, hplacement, hscope⟩ :=
      h.exists_draft_of_statement hstatement
    obtain ⟨hform, hname⟩ := hplacement.variableOf?_iff.1 hvariable
    rw [← hscope, h.local?_of_declare hdraft hform (hoperands.trans hname), Option.map_some,
      Kind.kind_zero]
  | none =>
    rw [Option.map_eq_none_iff]
    by_contra hsome
    obtain ⟨value, hvalue⟩ := Option.ne_none_iff_exists'.1 hsome
    obtain ⟨id, draft, kind, hdraft, ⟨hform, hname⟩, hscope, -⟩ := h.exists_declaring hvalue
    obtain ⟨s, _, _, hstatement, hoperands, hplacement, hplace⟩ :=
      h.exists_statement_of_draft hdraft
    have hsame : Lexical.blockOf earlier id = block :=
      Bracket.scopeOf_injective Lexical.opens_of_blockOf hblock (hplace.symm.trans hscope)
    exact Lexical.variableKind?_ne_none hstatement hsame
      (hplacement.variableOf?_iff.2 ⟨hform, hoperands.symm.trans hname⟩) hkind

/-- The scope of a block has the functions that statements directly in the block declare. -/
theorem Placed.functionIn?_eq (h : Placed earlier layout)
    (hblock : ∀ header ∈ block, (earlier.map Statement.bracket)[header]? = some .opens) :
    layout.scopes.localFunction? (Bracket.scopeOf (earlier.map Statement.bracket) block) name =
      Lexical.functionIn? earlier name block := by
  cases hfound : Lexical.functionIn? earlier name block with
  | some header =>
    obtain ⟨s, parameters, hstatement, rfl, hfunction⟩ := Lexical.exists_of_functionIn? hfound
    obtain ⟨draft, _, _, hdraft, -, hplacement, hscope⟩ := h.exists_draft_of_statement hstatement
    obtain ⟨bodyScope, hform⟩ := hplacement.functionOf?_iff.1 hfunction
    rw [← hscope]
    exact h.localFunction?_of_function hdraft hform
  | none =>
    by_contra hsome
    obtain ⟨header, hheader⟩ := Option.ne_none_iff_exists'.1 hsome
    obtain ⟨draft, signature, hdraft, hform, rfl, hscope⟩ := h.exists_function hheader
    obtain ⟨s, _, _, hstatement, -, hplacement, hplace⟩ := h.exists_statement_of_draft hdraft
    have hsame : Lexical.blockOf earlier header = block :=
      Bracket.scopeOf_injective Lexical.opens_of_blockOf hblock (hplace.symm.trans hscope)
    exact Lexical.functionIn?_ne_none hstatement hsame
      (hplacement.functionOf?_iff.2 ⟨_, hform⟩) hfound

/-- The parameters that are kept for the header of a block are those that it declares. -/
theorem Placed.parameterKind?_eq (h : Placed earlier layout) {header : Nat}
    (hlt : header < earlier.length) :
    ((layout.parametersAt header).find? (·.name == name)).map Parameter.kind =
      Lexical.parameterKind? earlier name (some header) := by
  have hstatement := List.getElem?_eq_getElem hlt
  obtain ⟨draft, _, _, hdraft, -, hplacement, -⟩ := h.exists_draft_of_statement hstatement
  unfold Lexical.parameterKind?
  rw [Option.bind_some, hstatement, Option.bind_some, parametersAt_eq hdraft]
  cases hfunction : Statement.functionOf? earlier[header] with
  | some declared =>
    obtain ⟨bodyScope, hform⟩ := hplacement.functionOf?_iff.1 hfunction
    rw [hform]
    rfl
  | none =>
    cases hform : draft.form with
    | function signature =>
      rw [hplacement.functionOf?_iff.2 ⟨_, hform⟩] at hfunction
      cases hfunction
    | declare | output | input | loop | branch | call | close | assign => rfl

/-- The open blocks, each with its scope and the parameters of its header. -/
theorem Placed.blocks_eq (h : Placed earlier layout) :
    layout.blocks = (Bracket.openAt (earlier.map Statement.bracket) earlier.length).map
      fun header ↦ ⟨Bracket.blockScope (earlier.map Statement.bracket) header,
        layout.parametersAt header⟩ := by
  have hscopes := h.scoped.blocks_eq
  rw [List.length_map] at hscopes
  have hparameters := h.parameters_eq
  generalize Bracket.openAt (earlier.map Statement.bracket) earlier.length = opened
    at hscopes hparameters ⊢
  generalize layout.blocks = blocks at hscopes hparameters ⊢
  induction blocks generalizing opened with
  | nil =>
    cases opened with
    | nil => rfl
    | cons => cases hscopes
  | cons block blocks ih =>
    cases opened with
    | nil => cases hscopes
    | cons header opened =>
      obtain ⟨hscope, hscopes⟩ := List.cons.inj hscopes
      obtain ⟨hparameter, hparameters⟩ := List.cons.inj hparameters
      rw [List.map_cons, ← hscope, ← hparameter, ← ih opened hscopes hparameters]

/-- What a block that is kept says about a name is what the statements of the block say. -/
theorem Placed.kindIn?_eq (h : Placed earlier layout)
    (hblock : ∀ header ∈ block, (earlier.map Statement.bracket)[header]? = some .opens)
    {parameters : List Parameter}
    (hparameters : (parameters.find? (·.name == name)).map Parameter.kind =
      Lexical.parameterKind? earlier name block) :
    layout.kindIn? name ⟨Bracket.scopeOf (earlier.map Statement.bracket) block, parameters⟩ =
      Lexical.kindIn? earlier name block := by
  unfold kindIn? Lexical.kindIn?
  rw [← h.variableKind?_eq hblock, ← hparameters]
  cases layout.scopes.local? (Bracket.scopeOf (earlier.map Statement.bracket) block) name <;> rfl

/-- The first pass finds the kind that a name has by what the statements before say. -/
theorem Placed.targetKind?_eq (h : Placed earlier layout) (name : String) :
    layout.targetKind? name = Lexical.kind? earlier name := by
  have hroot : [Block.mk rootScope []].findSome? (layout.kindIn? name) =
      [none].findSome? (Lexical.kindIn? earlier name) := by
    have hopens : ∀ header ∈ (none : Option Nat),
        (earlier.map Statement.bracket)[header]? = some .opens := fun _ hmem ↦ by cases hmem
    rw [List.findSome?_singleton, List.findSome?_singleton]
    exact h.kindIn?_eq hopens rfl
  unfold targetKind? surroundings Lexical.kind? Lexical.blocks
  rw [List.findSome?_append, List.findSome?_append, hroot, h.blocks_eq, List.findSome?_map,
    List.findSome?_map]
  congr 1
  apply findSome?_congr
  intro header hmem
  have hblock : some header ∈ Lexical.blocks earlier :=
    List.mem_append_left _ (List.mem_map_of_mem hmem)
  exact h.kindIn?_eq (Lexical.opens_of_mem_blocks hblock)
    (h.parameterKind?_eq (Bracket.getElem?_of_mem_openAt hmem).1)

/-- The first pass finds the function that a name means by what the statements before say. -/
theorem Placed.function?_eq (h : Placed earlier layout) (name : String) :
    layout.scopes.function? layout.scope name = Lexical.function? earlier name := by
  have hancestors : layout.scopes.ancestors layout.scope =
      (Lexical.blocks earlier).map (Bracket.scopeOf (earlier.map Statement.bracket)) := by
    rw [h.scoped.ancestors_scope, List.length_map, Bracket.scopesAt, Lexical.blocks,
      List.map_append, List.map_map]
    rfl
  unfold ScopeTree.function? Lexical.function?
  rw [hancestors, List.findSome?_map]
  apply findSome?_congr
  intro block hmem
  exact h.functionIn?_eq (Lexical.opens_of_mem_blocks hmem)

end Layout

end LineScript
