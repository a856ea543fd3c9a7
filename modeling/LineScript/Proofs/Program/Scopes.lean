import LineScript.Proofs.Bracket.Open
import LineScript.Proofs.Program.Frame
import LineScript.Proofs.Scope.Laws

/-!
# Scopes of linked programs

The scopes of a program mirror its blocks. Besides the root there is one scope for each header, and
they are numbered in the order of the headers; around a statement are the scopes of the blocks that
are open at it, the innermost first, and then the root. So what a call sees of the functions of a
program, it sees because it stands in the blocks in which they were declared.
-/

namespace LineScript

/-- The scope of the block that the header at a position opens. -/
def Bracket.blockScope (word : List Bracket) (header : Nat) : ScopeId :=
  (word.take header).count .opens + 1

/-- The scopes around a position, the nearest first. -/
def Bracket.scopesAt (word : List Bracket) (position : Nat) : List ScopeId :=
  (openAt word position).map (blockScope word) ++ [rootScope]

namespace Bracket

variable {word : List Bracket} {bracket : Bracket} {position header : Nat}

theorem blockScope_append (h : header ≤ word.length) (rest : List Bracket) :
    blockScope (word ++ rest) header = blockScope word header := by
  rw [blockScope, List.take_append_of_le_length h, blockScope]

theorem openAt_concat : openAt (word ++ [bracket]) (word ++ [bracket]).length =
    bracket.turn word.length (openAt word word.length) := by
  have hlast : (word ++ [bracket])[word.length]? = some bracket := by simp
  rw [List.length_append, List.length_singleton, openAt_succ hlast,
    openAt_append_of_le (Nat.le_refl _)]

theorem map_blockScope_append (h : position ≤ word.length) (rest : List Bracket) :
    (openAt word position).map (blockScope (word ++ rest)) =
      (openAt word position).map (blockScope word) := by
  apply List.map_congr_left
  intro header hmem
  exact blockScope_append (Nat.le_trans (Nat.le_of_lt (getElem?_of_mem_openAt hmem).1) h) rest

theorem scopesAt_append (h : position ≤ word.length) (rest : List Bracket) :
    scopesAt (word ++ rest) position = scopesAt word position := by
  rw [scopesAt, openAt_append_of_le h, map_blockScope_append h, scopesAt]

/-- No two headers open the same scope. -/
theorem blockScope_lt {other : Nat} (hopens : word[header]? = some .opens) (hlt : header < other) :
    blockScope word header < blockScope word other := by
  have hsublist : (word.take (header + 1)).Sublist (word.take other) :=
    List.take_sublist_take_left hlt
  have hcount := hsublist.count_le .opens
  rw [List.take_add_one, hopens, Option.toList_some, List.count_append] at hcount
  rw [List.count_singleton_self] at hcount
  exact Nat.succ_lt_succ hcount

theorem blockScope_injective {other : Nat} (hheader : word[header]? = some .opens)
    (hother : word[other]? = some .opens) (h : blockScope word header = blockScope word other) :
    header = other := by
  rcases Nat.lt_trichotomy header other with hlt | rfl | hgt
  · exact absurd h (Nat.ne_of_lt (blockScope_lt hheader hlt))
  · rfl
  · exact absurd h (Nat.ne_of_gt (blockScope_lt hother hgt))

/-- Scopes further out were made earlier. -/
theorem pairwise_scopesAt (word : List Bracket) (position : Nat) :
    (scopesAt word position).Pairwise (· > ·) := by
  refine List.pairwise_append.2 ⟨?_, List.pairwise_singleton _ _, ?_⟩
  · refine List.pairwise_map.2 ((pairwise_openAt word position).imp_of_mem ?_)
    exact fun _ hmem hlt ↦ blockScope_lt (getElem?_of_mem_openAt hmem).2 hlt
  · rintro scope hmem root hroot
    obtain ⟨header, -, rfl⟩ := List.mem_map.1 hmem
    rw [List.mem_singleton.1 hroot]
    exact Nat.succ_pos _

/-- The scope of a block is around exactly the positions inside it and its `end`. -/
theorem blockScope_mem_scopesAt_iff (hbalanced : Balanced word)
    (hheader : word[header]? = some .opens) :
    blockScope word header ∈ scopesAt word position ↔
      ∃ close, Pair word header close ∧ header < position ∧ position ≤ close := by
  rw [← mem_openAt_iff hbalanced, scopesAt, List.mem_append, List.mem_singleton, List.mem_map]
  constructor
  · rintro (⟨other, hmem, hsame⟩ | hroot)
    · rwa [blockScope_injective hheader (getElem?_of_mem_openAt hmem).2 hsame.symm]
    · cases hroot
  · exact fun hmem ↦ .inl ⟨header, hmem, rfl⟩

end Bracket

namespace Layout

variable {layout after : Layout} {keyword : String} {operands : List Operand} {form : Form}

/-- What a statement does to scopes and blocks, by what it does to their nesting. -/
theorem Placement.nesting (h : layout.Placement keyword operands after form) :
    match form.bracket with
    | .opens =>
      (∀ id, after.scopes.ancestors id = (layout.scopes.addChild layout.scope).ancestors id) ∧
        after.scopes.count = layout.scopes.count + 1 ∧
        after.blocks.map Block.scope = layout.scopes.count :: layout.blocks.map Block.scope
    | .closes => after.scopes = layout.scopes ∧
        ∃ scope, layout.blocks.map Block.scope = scope :: after.blocks.map Block.scope
    | .plain => after.scopes.ancestors = layout.scopes.ancestors ∧
        after.scopes.count = layout.scopes.count ∧ after.blocks = layout.blocks := by
  cases h with
  | declare _ _ hdeclare =>
    obtain ⟨-, rfl⟩ := ScopeTree.declare_eq_ok hdeclare
    exact ⟨ScopeTree.ancestors_bindIn, ScopeTree.count_bindIn, rfl⟩
  | output | input | call | assign => exact ⟨rfl, rfl, rfl⟩
  | loop | branch => exact ⟨fun _ ↦ rfl, ScopeTree.count_addChild, rfl⟩
  | function _ _ hdeclare =>
    obtain ⟨hcount, hancestors, -, -⟩ := ScopeTree.declareFunction_eq_ok hdeclare
    refine ⟨fun id ↦ ?_, ?_, ?_⟩
    · change (ScopeTree.addChild _ layout.scope).ancestors id = _
      rw [ScopeTree.ancestors_addChild, ScopeTree.ancestors_addChild, hcount, hancestors]
    · change (ScopeTree.addChild _ layout.scope).count = _
      rw [ScopeTree.count_addChild, hcount]
    · exact congrArg (· :: _) hcount
  | close _ hblocks =>
    refine ⟨rfl, ?_⟩
    rw [hblocks]
    exact ⟨_, rfl⟩

/-- A variable keeps the value it was declared with, whatever is placed after it. -/
theorem Placement.local?_eq (h : layout.Placement keyword operands after form) {scope : ScopeId}
    {name : String} {value : Value} (hlocal : layout.scopes.local? scope name = some value) :
    after.scopes.local? scope name = some value := by
  cases h with
  | declare _ _ hdeclare =>
    obtain ⟨hnone, rfl⟩ := ScopeTree.declare_eq_ok hdeclare
    rw [ScopeTree.local?_bindIn, if_neg, hlocal]
    rintro ⟨⟨rfl, rfl⟩, -⟩
    rw [hnone] at hlocal
    cases hlocal
  | output | input | call | assign | close => exact hlocal
  | loop | branch => exact ScopeTree.local?_addChild.trans hlocal
  | function _ _ hdeclare =>
    obtain ⟨-, -, hsame, -⟩ := ScopeTree.declareFunction_eq_ok hdeclare
    exact ScopeTree.local?_addChild.trans ((hsame scope name).trans hlocal)

/-- A function is found where its header was placed. -/
theorem Placement.localFunction?_eq (h : layout.Placement keyword operands after form)
    {scope : ScopeId} {name : String} {header : NodeId}
    (hlocal : after.scopes.localFunction? scope name = some header) :
    layout.scopes.localFunction? scope name = some header ∨
      scope = layout.scope ∧ header = layout.drafts.size := by
  cases h with
  | declare _ _ hdeclare =>
    obtain ⟨-, rfl⟩ := ScopeTree.declare_eq_ok hdeclare
    exact .inl (ScopeTree.localFunction?_bindIn.symm.trans hlocal)
  | output | input | call | assign | close => exact .inl hlocal
  | loop | branch => exact .inl (ScopeTree.localFunction?_addChild.symm.trans hlocal)
  | function _ _ hdeclare =>
    obtain ⟨-, -, -, hfunction⟩ := ScopeTree.declareFunction_eq_ok hdeclare
    have hdeclared := ScopeTree.localFunction?_addChild.symm.trans hlocal
    rw [hfunction] at hdeclared
    split at hdeclared
    · rename_i hhere
      exact .inr ⟨hhere.1.1.symm, (Option.some.inj hdeclared).symm⟩
    · exact .inl hdeclared

/-! ## Layouts that statements lead to -/

/-- The scopes of a layout are those of the blocks of a word of brackets, at whose end it is. -/
structure Scoped (word : List Bracket) (layout : Layout) : Prop where
  nested : layout.scopes.Nested
  count_eq : layout.scopes.count = word.count .opens + 1
  blocks_eq : layout.blocks.map Block.scope =
    (Bracket.openAt word word.length).map (Bracket.blockScope word)
  ancestors_scope : layout.scopes.ancestors layout.scope = Bracket.scopesAt word word.length
  ancestors_draft : ∀ (id : Nat) (draft : Draft), layout.drafts[id]? = some draft →
    layout.scopes.ancestors draft.scope = Bracket.scopesAt word id

theorem scoped_start : Scoped [] start where
  nested := ScopeTree.nested_initial
  count_eq := rfl
  blocks_eq := rfl
  ancestors_scope := rfl
  ancestors_draft := fun id draft hdraft ↦ absurd hdraft (by simp [start])

/-- The scope of the next statement is the first of those around it. -/
theorem exists_scopes_eq_cons (layout : Layout) :
    ∃ rest, layout.blocks.map Block.scope ++ [rootScope] = layout.scope :: rest := by
  unfold scope
  cases layout.blocks with
  | nil => exact ⟨[], rfl⟩
  | cons block outer => exact ⟨_, rfl⟩

/-- Where the scopes around the next statement are those that a layout had around its own before,
they are around its scope. -/
theorem ancestors_scope_of_suffix (hnested : layout.scopes.Nested) (id : ScopeId)
    (hsuffix : layout.blocks.map Block.scope ++ [rootScope] <:+ layout.scopes.ancestors id) :
    layout.scopes.ancestors layout.scope = layout.blocks.map Block.scope ++ [rootScope] := by
  obtain ⟨rest, hrest⟩ := layout.exists_scopes_eq_cons
  rw [hrest] at hsuffix ⊢
  exact hnested hsuffix

variable {word : List Bracket}

theorem Scoped.scopesAt_eq (h : Scoped word layout) :
    Bracket.scopesAt word word.length = layout.blocks.map Block.scope ++ [rootScope] := by
  rw [Bracket.scopesAt, h.blocks_eq]

/-- Placing a statement leaves what is around the scopes that there are. -/
theorem Placement.ancestors_eq (h : layout.Placement keyword operands after form) {id : ScopeId}
    {position : Nat} (hscopes : layout.scopes.ancestors id = Bracket.scopesAt word position) :
    after.scopes.ancestors id = Bracket.scopesAt word position := by
  have hroot : rootScope ∈ layout.scopes.ancestors id := by
    rw [hscopes]
    exact List.mem_append_right _ List.mem_cons_self
  have hnesting := h.nesting
  rw [← hscopes]
  split at hnesting
  · rw [hnesting.1, ScopeTree.ancestors_addChild_of_mem hroot]
  · rw [hnesting.1]
  · rw [hnesting.1]

theorem Placement.nested (h : layout.Placement keyword operands after form)
    (hnested : layout.scopes.Nested) : after.scopes.Nested := by
  have hnesting := h.nesting
  split at hnesting
  · exact (hnested.addChild layout.scope).of_ancestors_eq (funext hnesting.1)
  · rw [hnesting.1]
    exact hnested
  · exact hnested.of_ancestors_eq hnesting.1

/-- The blocks that are open after a statement, by their scopes. -/
theorem Scoped.blocks_place (h : Scoped word layout)
    (hplace : layout.Placement keyword operands after form) :
    after.blocks.map Block.scope =
      (Bracket.openAt (word ++ [form.bracket]) (word ++ [form.bracket]).length).map
        (Bracket.blockScope (word ++ [form.bracket])) := by
  have hnesting := hplace.nesting
  have hmap := Bracket.map_blockScope_append (Nat.le_refl word.length) [form.bracket]
  rw [← h.blocks_eq] at hmap
  rw [Bracket.openAt_concat]
  split at hnesting
  · rename_i hbracket
    rw [hbracket] at hmap ⊢
    rw [Bracket.turn, List.map_cons, hmap, Bracket.blockScope_append (Nat.le_refl _),
      Bracket.blockScope, List.take_length, hnesting.2.2, h.count_eq]
  · rename_i hbracket
    obtain ⟨-, scope, hscope⟩ := hnesting
    rw [hbracket] at hmap ⊢
    rw [Bracket.turn, List.map_tail, hmap, hscope, List.tail_cons]
  · rename_i hbracket
    rw [hbracket] at hmap ⊢
    rw [Bracket.turn, hmap, hnesting.2.2]

/-- The scopes around the statement after one that was placed. -/
theorem Scoped.ancestors_place (h : Scoped word layout)
    (hplace : layout.Placement keyword operands after form) :
    after.scopes.ancestors after.scope = after.blocks.map Block.scope ++ [rootScope] := by
  have hnested := hplace.nested h.nested
  have hbefore := h.ancestors_scope.trans h.scopesAt_eq
  have hnesting := hplace.nesting
  split at hnesting
  · obtain ⟨hancestors, -, hblocks⟩ := hnesting
    apply ancestors_scope_of_suffix hnested layout.scopes.count
    rw [hancestors, ScopeTree.ancestors_addChild, if_pos rfl, hbefore, hblocks, List.cons_append]
  · obtain ⟨hscopes, scope, hblocks⟩ := hnesting
    apply ancestors_scope_of_suffix hnested layout.scope
    rw [hscopes, hbefore, hblocks, List.cons_append]
    exact List.suffix_cons scope _
  · obtain ⟨hancestors, -, hblocks⟩ := hnesting
    apply ancestors_scope_of_suffix hnested layout.scope
    rw [hancestors, hbefore, hblocks]

/-- Every statement keeps the scopes those of the blocks. -/
theorem Scoped.place (h : Scoped word layout) (hsize : layout.drafts.size = word.length)
    (hplace : layout.Placement keyword operands after form) (location : Location) :
    Scoped (word ++ [form.bracket]) { after with
      drafts := layout.drafts.push ⟨location, operands, layout.scope, form⟩ } where
  nested := hplace.nested h.nested
  count_eq := by
    have hnesting := hplace.nesting
    have hcount := h.count_eq
    rw [List.count_append]
    change after.scopes.count = _
    split at hnesting
    · rename_i hbracket
      rw [hbracket, hnesting.2.1, hcount]
      rfl
    · rename_i hbracket
      rw [hbracket, hnesting.1, hcount]
      rfl
    · rename_i hbracket
      rw [hbracket, hnesting.2.1, hcount]
      rfl
  blocks_eq := by
    have hblocks := h.blocks_place hplace
    exact hblocks
  ancestors_scope := by
    have hancestors := h.ancestors_place hplace
    rw [h.blocks_place hplace] at hancestors
    exact hancestors
  ancestors_draft := by
    intro id draft hdraft
    rw [Array.getElem?_push] at hdraft
    split at hdraft
    · rename_i hid
      cases hdraft
      rw [hid, hsize, Bracket.scopesAt_append (Nat.le_refl _)]
      exact hplace.ancestors_eq h.ancestors_scope
    · obtain ⟨hlt, -⟩ := Array.getElem?_eq_some_iff.1 hdraft
      rw [Bracket.scopesAt_append (by omega)]
      exact hplace.ancestors_eq (h.ancestors_draft id draft hdraft)

variable {statements : List Statement}

theorem Placed.scoped (h : Placed statements layout) :
    Scoped (statements.map Statement.bracket) layout := by
  induction h with
  | start => exact scoped_start
  | @place earlier statement _ _ hplaced hplace ih =>
    obtain ⟨interpreted, form, hplacement, rfl⟩ := exists_placement hplace
    have hsize := hplaced.size_drafts
    rw [← List.length_map Statement.bracket] at hsize
    have hscoped := ih.place hsize hplacement statement.location
    rw [List.map_append]
    rwa [hplacement.bracket_eq] at hscoped

theorem Placed.scope_lt_count (h : Placed statements layout) :
    layout.scope < layout.scopes.count := by
  by_contra hge
  have hancestors := h.scoped.ancestors_scope
  rw [ScopeTree.ancestors_eq_nil (Nat.not_lt.1 hge), Bracket.scopesAt] at hancestors
  exact absurd hancestors.symm (by simp)

/-- A declared variable is bound in the scope of its declaration, to the zero of its kind. -/
theorem Placed.local?_of_declare (h : Placed statements layout) {id : Nat} {draft : Draft}
    (hdraft : layout.drafts[id]? = some draft) {kind : Kind} (hform : draft.form = .declare kind)
    {name : String} (hoperands : draft.operands = [.name name]) :
    layout.scopes.local? draft.scope name = some kind.zero := by
  induction h generalizing id draft with
  | start => exact absurd hdraft (by simp [Layout.start])
  | @place earlier statement layout _ hplaced hplace ih =>
    obtain ⟨interpreted, form, hplacement, rfl⟩ := exists_placement hplace
    rw [Array.getElem?_push] at hdraft
    split at hdraft
    · cases hdraft
      cases hplacement with
      | declare _ hname hdeclare =>
        cases hform
        rw [hname] at hoperands
        cases hoperands
        obtain ⟨-, rfl⟩ := ScopeTree.declare_eq_ok hdeclare
        exact ScopeTree.local?_bindIn.trans (if_pos ⟨⟨rfl, rfl⟩, hplaced.scope_lt_count⟩)
      | output | input | loop | branch | function | call | close | assign => cases hform
    · exact hplacement.local?_eq (ih hdraft hform hoperands)

/-- A function is declared in the scope of its header. -/
theorem Placed.scope_of_function (h : Placed statements layout) {scope : ScopeId} {name : String}
    {header : NodeId} (hfunction : layout.scopes.localFunction? scope name = some header) :
    ∃ draft, layout.drafts[header]? = some draft ∧ draft.scope = scope := by
  induction h with
  | start =>
    cases scope <;> cases hfunction
  | place _ hplace ih =>
    obtain ⟨interpreted, form, hplacement, rfl⟩ := exists_placement hplace
    rcases hplacement.localFunction?_eq hfunction with hbefore | ⟨rfl, rfl⟩
    · obtain ⟨draft, hdraft, hscope⟩ := ih hbefore
      exact ⟨draft, getElem?_push_of_some hdraft _, hscope⟩
    · exact ⟨_, by rw [Array.getElem?_push, if_pos rfl], rfl⟩

/-- A call sees its function: the scope of the header is around the call. -/
theorem Placed.scope_of_callee (h : Placed statements layout) {id : Nat} {draft : Draft}
    (hdraft : layout.drafts[id]? = some draft) {callee : NodeId} {function : String}
    {arguments : List Argument} (hcall : draft.form = .call callee function arguments) :
    ∃ header, layout.drafts[callee]? = some header ∧
      header.scope ∈ layout.scopes.ancestors draft.scope := by
  induction h generalizing id draft with
  | start => exact absurd hdraft (by simp [Layout.start])
  | @place statements statement layout after hplaced hplace ih =>
    obtain ⟨interpreted, form, hplacement, rfl⟩ := exists_placement hplace
    have hscoped := hplaced.scoped
    rw [Array.getElem?_push] at hdraft
    split at hdraft
    · cases hdraft
      cases hplacement with
      | call _ _ hcallee =>
        cases hcall
        unfold callee? at hcallee
        split at hcallee
        · cases hcallee
        · rename_i found hfound
          split at hcallee
          · cases hcallee
            obtain ⟨around, haround, hlocal⟩ := List.exists_of_findSome?_eq_some hfound
            obtain ⟨header, hheader, rfl⟩ := hplaced.scope_of_function hlocal
            exact ⟨header, getElem?_push_of_some hheader _, haround⟩
          · cases hcallee
      | declare | output | input | loop | branch | function | close | assign => cases hcall
    · obtain ⟨header, hheader, haround⟩ := ih hdraft hcall
      refine ⟨header, getElem?_push_of_some hheader _, ?_⟩
      have hancestors := hscoped.ancestors_draft id draft hdraft
      change header.scope ∈ interpreted.scopes.ancestors draft.scope
      rw [hplacement.ancestors_eq hancestors, ← hancestors]
      exact haround

end Layout

/-! ## Linked programs -/

def Node.declared? (node : Node) : Option (String × Kind) :=
  match node.action, node.operands with
  | .declare kind, [.name name] => some (name, kind)
  | _, _ => none

/-- A statement declares a variable of some kind, in some scope. -/
def Program.Declares (program : Program) (scope : ScopeId) (name : String) (kind : Kind) : Prop :=
  ∃ id node, program.node? id = some node ∧ node.declared? = some (name, kind) ∧ node.scope = scope

variable {statements : List Statement} {linked : Linked} {id : Nat} {node : Node}

theorem nested_of_link (h : link statements = .ok linked) : linked.scopes.Nested := by
  obtain ⟨layout, hplaced, hresolved⟩ := exists_layout_of_link h
  rw [hresolved.scopes_eq]
  exact hplaced.scoped.nested

/-- Around a statement are the scopes of the blocks that are open at it, and the root. -/
theorem ancestors_of_node (h : link statements = .ok linked)
    (hnode : linked.program.node? id = some node) :
    linked.scopes.ancestors node.scope = Bracket.scopesAt linked.program.brackets id := by
  obtain ⟨layout, hplaced, hresolved⟩ := exists_layout_of_link h
  obtain ⟨form, hdraft, -⟩ := hresolved.exists_draft hnode
  rw [hresolved.scopes_eq, brackets_of_link h]
  exact hplaced.scoped.ancestors_draft id _ hdraft

theorem mem_ancestors_of_node (h : link statements = .ok linked)
    (hnode : linked.program.node? id = some node) :
    node.scope ∈ linked.scopes.ancestors node.scope := by
  cases hancestors : linked.scopes.ancestors node.scope with
  | nil =>
    rw [ancestors_of_node h hnode, Bracket.scopesAt] at hancestors
    exact absurd hancestors (by simp)
  | cons first rest =>
    rw [ScopeTree.eq_of_ancestors_eq_cons hancestors]
    exact List.mem_cons_self

/-- No scope is around itself. -/
theorem nodup_ancestors_of_node (h : link statements = .ok linked)
    (hnode : linked.program.node? id = some node) :
    (linked.scopes.ancestors node.scope).Nodup := by
  rw [ancestors_of_node h hnode]
  exact (Bracket.pairwise_scopesAt _ id).imp fun hlt ↦ Nat.ne_of_gt hlt

/-- A declared variable is bound when the program starts, to the zero of its kind. -/
theorem local?_of_declares (h : link statements = .ok linked) {scope : ScopeId} {name : String}
    {kind : Kind} (hdeclares : linked.program.Declares scope name kind) :
    linked.scopes.local? scope name = some kind.zero := by
  obtain ⟨layout, hplaced, hresolved⟩ := exists_layout_of_link h
  obtain ⟨id, node, hnode, hdeclared, rfl⟩ := hdeclares
  obtain ⟨form, hdraft, hresolution⟩ := hresolved.exists_draft hnode
  unfold Node.declared? at hdeclared
  split at hdeclared
  · rename_i haction hoperands
    cases hdeclared
    rw [haction] at hresolution
    rw [hresolved.scopes_eq]
    cases hresolution with
    | declare hform => exact hplaced.local?_of_declare hdraft hform hoperands
  · cases hdeclared

/-- The scope of a function's header is around every call of the function. -/
theorem scope_of_callee (h : link statements = .ok linked)
    (hnode : linked.program.node? id = some node) {callee : NodeId} {function : String}
    {arguments : List Argument} (haction : node.action = .call callee function arguments)
    {header : Node} (hheader : linked.program.node? callee = some header) :
    header.scope ∈ linked.scopes.ancestors node.scope := by
  obtain ⟨layout, hplaced, hresolved⟩ := exists_layout_of_link h
  obtain ⟨form, hdraft, hresolution⟩ := hresolved.exists_draft hnode
  obtain ⟨found, hfound, haround⟩ :=
    hplaced.scope_of_callee hdraft (hresolution.form_of_call haction)
  obtain ⟨action, hcallee, -⟩ := hresolved.exists_node callee found hfound
  rw [hheader] at hcallee
  cases hcallee
  rw [hresolved.scopes_eq]
  exact haround

/-- The scope of a block's header is around every statement in the block. -/
theorem scope_of_pair (h : link statements = .ok linked)
    (hnode : linked.program.node? id = some node) {header close : Nat}
    (hpair : Bracket.Pair linked.program.brackets header close) (hlt : header < id)
    (hle : id ≤ close) {opener : Node} (hopener : linked.program.node? header = some opener) :
    opener.scope ∈ linked.scopes.ancestors node.scope := by
  obtain ⟨inner, hinner⟩ := hpair.exists_openAt hlt hle
  have hscope := mem_ancestors_of_node h hopener
  rw [ancestors_of_node h hopener, Bracket.scopesAt] at hscope
  rw [ancestors_of_node h hnode, Bracket.scopesAt, hinner, List.map_append, List.map_cons,
    List.append_assoc, List.cons_append]
  exact List.mem_append_right _ (List.mem_cons_of_mem _ hscope)

/-- A function sees at its calls what it sees at its header: the functions around the header are
around every call. -/
theorem isAround_of_call (h : link statements = .ok linked)
    (hnode : linked.program.node? id = some node) {callee : NodeId} {function : String}
    {arguments : List Argument} (haction : node.action = .call callee function arguments)
    {header : NodeId} (haround : linked.program.isAround callee header = true) :
    linked.program.isAround id header = true := by
  have hbalanced := balanced_of_link h
  obtain ⟨hfunction, close, hpair, hinside⟩ := (Program.isAround_iff hbalanced).1 haround
  obtain ⟨-, opener, _, _, _, hopener, -⟩ := exists_header_of_call h hnode haction
  have hscope : Bracket.blockScope linked.program.brackets header ∈
      linked.scopes.ancestors opener.scope := by
    rw [ancestors_of_node h hopener]
    exact (Bracket.blockScope_mem_scopesAt_iff hbalanced hpair.opens).2 ⟨close, hpair, hinside⟩
  have hsuffix := (nested_of_link h).suffix_of_mem (scope_of_callee h hnode haction hopener)
  have hsite := hsuffix.subset hscope
  rw [ancestors_of_node h hnode] at hsite
  exact (Program.isAround_iff hbalanced).2
    ⟨hfunction, (Bracket.blockScope_mem_scopesAt_iff hbalanced hpair.opens).1 hsite⟩

end LineScript
