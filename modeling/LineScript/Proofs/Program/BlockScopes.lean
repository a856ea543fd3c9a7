import LineScript.Proofs.Program.Scopes
import LineScript.Proofs.Scope.Entries

/-!
# Blocks and their scopes

Each header owns one scope, numbered as the headers come in the source, and the scope of a statement
is that of the innermost block around it. What a scope binds when the program starts are the
variables that the statements of the scope declare, each once: a declaration of a name that the
scope binds already is refused. Parameters are not among them.
-/

namespace LineScript

namespace Bracket

variable {word : List Bracket} {header close position : Nat}

/-- The positions of the brackets that open blocks, in order. -/
def headers (word : List Bracket) : List Nat :=
  (List.range word.length).filter fun position ↦ word[position]? = some .opens

theorem headers_concat (word : List Bracket) (bracket : Bracket) :
    headers (word ++ [bracket]) =
      headers word ++ if bracket = .opens then [word.length] else [] := by
  unfold headers
  rw [List.length_append, List.length_singleton, List.range_succ, List.filter_append]
  congr 1
  · apply List.filter_congr
    intro position hmem
    rw [List.getElem?_append_left (List.mem_range.1 hmem)]
  · by_cases hopens : bracket = .opens <;> simp [hopens]

theorem length_headers (word : List Bracket) : (headers word).length = word.count .opens := by
  induction word using List.reverseRecOn with
  | nil => rfl
  | append_singleton word bracket ih =>
    rw [headers_concat, List.length_append, ih, List.count_append]
    by_cases hopens : bracket = .opens
    · simp [hopens]
    · simp [hopens]

/-- The headers own scopes in their order. -/
theorem opens_of_headers {index : Nat} (h : (headers word)[index]? = some header) :
    word[header]? = some .opens ∧ blockScope word header = index + 1 := by
  induction word using List.reverseRecOn with
  | nil => exact absurd h (by simp [headers])
  | append_singleton word bracket ih =>
    rw [headers_concat, List.getElem?_append] at h
    split at h
    · obtain ⟨hopens, hscope⟩ := ih h
      obtain ⟨hlt, -⟩ := List.getElem?_eq_some_iff.1 hopens
      rw [List.getElem?_append_left hlt, blockScope_append (Nat.le_of_lt hlt)]
      exact ⟨hopens, hscope⟩
    · rename_i hge
      rw [length_headers] at h hge
      split at h
      · rename_i hbracket
        obtain ⟨hindex, hheader⟩ := List.getElem?_eq_some_iff.1 h
        rw [List.getElem_singleton] at hheader
        subst hheader
        rw [List.length_singleton] at hindex
        have hsame : word.count .opens = index := by omega
        rw [blockScope_append (Nat.le_refl _), blockScope, List.take_length, hbracket, hsame]
        exact ⟨by simp, rfl⟩
      · cases h

/-- A block is the last one opened of those around a position; its header is not in it, and its end
is. -/
def Innermost (word : List Bracket) (header close position : Nat) : Prop :=
  Pair word header close ∧ header < position ∧ position ≤ close ∧
    ∀ other last, Pair word other last → other < position → position ≤ last → other ≤ header

theorem Innermost.head?_openAt (hbalanced : Balanced word)
    (h : Innermost word header close position) :
    (openAt word position).head? = some header := by
  obtain ⟨hpair, hlt, hle, hlast⟩ := h
  have hmem : header ∈ openAt word position := (mem_openAt_iff hbalanced).2 ⟨close, hpair, hlt, hle⟩
  have hdescending := pairwise_openAt word position
  cases hopened : openAt word position with
  | nil =>
    rw [hopened] at hmem
    cases hmem
  | cons first rest =>
    rw [hopened] at hmem hdescending
    have hfirst : first ∈ openAt word position := by
      rw [hopened]
      exact List.mem_cons_self
    obtain ⟨last, hother, hfirstLt, hfirstLe⟩ := (mem_openAt_iff hbalanced).1 hfirst
    have hbound := hlast first last hother hfirstLt hfirstLe
    rcases List.mem_cons.1 hmem with rfl | hinside
    · rfl
    · have hgt := (List.pairwise_cons.1 hdescending).1 header hinside
      exact absurd hbound (Nat.not_le.2 hgt)

theorem openAt_eq_nil (hbalanced : Balanced word)
    (h : ∀ header close, Pair word header close → header < position → close < position) :
    openAt word position = [] := by
  apply List.eq_nil_iff_forall_not_mem.2
  intro header hmem
  obtain ⟨close, hpair, hlt, hle⟩ := (mem_openAt_iff hbalanced).1 hmem
  exact absurd (h header close hpair hlt) (Nat.not_lt.2 hle)

/-- The scope of a position: that of the block opened last of those around it. -/
def scopeAt (word : List Bracket) (position : Nat) : ScopeId :=
  (scopesAt word position).headD rootScope

theorem scopeAt_eq (word : List Bracket) (position : Nat) :
    scopeAt word position =
      ((openAt word position).head?.map (blockScope word)).getD rootScope := by
  unfold scopeAt scopesAt
  cases openAt word position <;> rfl

theorem scopeAt_append (h : position ≤ word.length) (rest : List Bracket) :
    scopeAt (word ++ rest) position = scopeAt word position := by
  rw [scopeAt, scopesAt_append h, scopeAt]

theorem scopeAt_take (count : Nat) (h : position ≤ (word.take count).length) :
    scopeAt (word.take count) position = scopeAt word position := by
  have happend := scopeAt_append h (word.drop count)
  rw [List.take_append_drop] at happend
  exact happend.symm

/-- What is around a scope says which scope it is. -/
theorem eq_scopeAt_of_ancestors {tree : ScopeTree} {scope : ScopeId}
    (h : tree.ancestors scope = scopesAt word position) : scope = scopeAt word position := by
  unfold scopeAt
  cases hscopes : scopesAt word position with
  | nil => exact absurd hscopes (by simp [scopesAt])
  | cons first rest =>
    rw [hscopes] at h
    exact (ScopeTree.eq_of_ancestors_eq_cons h).symm

end Bracket

namespace Layout

variable {layout after : Layout} {keyword : String} {operands : List Operand} {form : Form}
  {statements : List Statement} {scope : ScopeId} {name : String} {value : Value}

/-- A variable is new only where a declaration is placed. -/
theorem Placement.local?_cases (h : layout.Placement keyword operands after form)
    (hlocal : after.scopes.local? scope name = some value) :
    layout.scopes.local? scope name = some value ∨
      ∃ kind, form = .declare kind ∧ operands = [.name name] ∧ scope = layout.scope ∧
        value = kind.zero := by
  cases h with
  | declare _ hname hdeclare =>
    obtain ⟨-, rfl⟩ := ScopeTree.declare_eq_ok hdeclare
    rw [ScopeTree.local?_bindIn] at hlocal
    split at hlocal
    · rename_i hhere
      obtain ⟨⟨hscope, rfl⟩, -⟩ := hhere
      exact .inr ⟨_, rfl, hname, hscope.symm, (Option.some.inj hlocal).symm⟩
    · exact .inl hlocal
  | output | input | call | assign | close => exact .inl hlocal
  | loop | branch => exact .inl (ScopeTree.local?_addChild.symm.trans hlocal)
  | function _ _ hdeclare =>
    obtain ⟨-, -, hsame, -⟩ := ScopeTree.declareFunction_eq_ok hdeclare
    have hinside := ScopeTree.local?_addChild.symm.trans hlocal
    exact .inl ((hsame scope name).symm.trans hinside)

/-- A draft declares a variable in its scope. -/
def Declaring (draft : Draft) (name : String) (kind : Kind) : Prop :=
  draft.form = .declare kind ∧ draft.operands = [.name name]

/-- Every variable was declared by a statement of its scope. -/
theorem Placed.exists_declaring (h : Placed statements layout)
    (hlocal : layout.scopes.local? scope name = some value) :
    ∃ (id : Nat) (draft : Draft) (kind : Kind), layout.drafts[id]? = some draft ∧
      Declaring draft name kind ∧ draft.scope = scope ∧ value = kind.zero := by
  induction h with
  | start => cases scope <;> cases hlocal
  | @place earlier statement layout _ _ hplace ih =>
    obtain ⟨interpreted, form, hplacement, rfl⟩ := exists_placement hplace
    rcases hplacement.local?_cases hlocal with hbefore | ⟨kind, rfl, hname, rfl, rfl⟩
    · obtain ⟨id, draft, kind, hdraft, hrest⟩ := ih hbefore
      exact ⟨id, draft, kind, getElem?_push_of_some hdraft _, hrest⟩
    · exact ⟨_, _, kind, Array.getElem?_push_size, ⟨rfl, hname⟩, rfl, rfl⟩

/-- No two statements of one scope declare the same variable. -/
theorem Placed.eq_of_declaring (h : Placed statements layout) {id other : Nat}
    {draft otherDraft : Draft} {kind otherKind : Kind} (hdraft : layout.drafts[id]? = some draft)
    (hother : layout.drafts[other]? = some otherDraft) (hdeclaring : Declaring draft name kind)
    (hagain : Declaring otherDraft name otherKind) (hscope : draft.scope = otherDraft.scope) :
    id = other := by
  induction h with
  | start => exact absurd hdraft (by simp [Layout.start])
  | @place earlier statement layout _ hplaced hplace ih =>
    obtain ⟨interpreted, form, hplacement, rfl⟩ := exists_placement hplace
    -- The last statement finds its scope without the name, so none before it declared the name.
    have hnew : ∀ {position : Nat} {found : Draft} {first second : Kind},
        layout.drafts[position]? = some found → Declaring found name first →
        found.scope = layout.scope → form = .declare second →
        Operand.classify statement.operands = [.name name] → False := by
      intro position found first second hfound hfirst hsame hform hoperands
      have hbound := hplaced.local?_of_declare hfound hfirst.1 hfirst.2
      cases hplacement with
      | declare _ hname hdeclare =>
        rw [hname] at hoperands
        cases hoperands
        rw [hsame, (ScopeTree.declare_eq_ok hdeclare).1] at hbound
        cases hbound
      | output | input | loop | branch | function | call | close | assign => cases hform
    rw [Array.getElem?_push] at hdraft hother
    split at hdraft
    · rename_i hid
      cases hdraft
      split at hother
      · rename_i hsame
        exact hid.trans hsame.symm
      · exact (hnew hother hagain hscope.symm hdeclaring.1 hdeclaring.2).elim
    · split at hother
      · cases hother
        exact (hnew hdraft hdeclaring hscope hagain.1 hagain.2).elim
      · exact ih hdraft hother

theorem keyword_injective {kind other : Kind} (h : kind.keyword = other.keyword) :
    kind = other := by
  have hkind := Kind.ofKeyword?_keyword kind
  rw [h, Kind.ofKeyword?_keyword] at hkind
  exact (Option.some.inj hkind).symm

/-- What declares a variable is told by the keyword. -/
theorem Placement.declares_iff (h : layout.Placement keyword operands after form) (kind : Kind) :
    keyword = kind.keyword ↔ form = .declare kind ∧ ∃ name, operands = [.name name] := by
  cases h with
  | @declare found name _ hkeyword hname =>
    rw [hkeyword, hname]
    constructor
    · intro hsame
      rw [keyword_injective hsame]
      exact ⟨rfl, name, rfl⟩
    · rintro ⟨hsame, -⟩
      cases hsame
      rfl
  | output hkeyword | input hkeyword | loop hkeyword | branch hkeyword | function hkeyword
  | call hkeyword | close hkeyword =>
    rw [hkeyword]
    cases kind <;> simp [Kind.keyword]
  | assign hkeyword =>
    have hmem : kind.keyword ∈ keywords := by cases kind <;> simp [keywords, Kind.keyword]
    constructor
    · rintro rfl
      exact absurd hmem hkeyword
    · rintro ⟨hsame, -⟩
      cases hsame

theorem Placed.declaring_iff (h : Placed statements layout) {id : Nat} {draft : Draft}
    (hdraft : layout.drafts[id]? = some draft) (kind : Kind) :
    draft.location.keyword = kind.keyword ↔ ∃ name, Declaring draft name kind := by
  obtain ⟨before, after, -, hplacement, -⟩ := h.placement_of_draft hdraft
  exact (hplacement.declares_iff kind).trans exists_and_left.symm

/-- The scope of a function's body is that of its block. -/
theorem Placed.bodyScope_eq (h : Placed statements layout) {id : Nat} {draft : Draft}
    (hdraft : layout.drafts[id]? = some draft) {signature : Signature}
    (hform : draft.form = .function signature) :
    signature.bodyScope = Bracket.blockScope (statements.map Statement.bracket) id := by
  obtain ⟨before, after, hbefore, hplacement, -⟩ := h.placement_of_draft hdraft
  rw [hform] at hplacement
  cases hplacement with
  | function =>
    change before.scopes.count = _
    rw [hbefore.scoped.count_eq, Bracket.blockScope, List.map_take]

end Layout

/-! ## Linked programs -/

def Program.headers (program : Program) : List NodeId :=
  Bracket.headers program.brackets

variable {statements : List Statement} {linked : Linked} {id header : Nat} {node : Node}

theorem scope_of_node (h : link statements = .ok linked)
    (hnode : linked.program.node? id = some node) :
    node.scope = Bracket.scopeAt linked.program.brackets id :=
  Bracket.eq_scopeAt_of_ancestors (ancestors_of_node h hnode)

/-- Around the scope that a header owns are the scopes that are around the header. -/
theorem ancestors_of_opens (h : link statements = .ok linked)
    (hopens : linked.program.brackets[header]? = some .opens)
    (hnode : linked.program.node? header = some node) :
    linked.scopes.ancestors (Bracket.blockScope linked.program.brackets header) =
      Bracket.blockScope linked.program.brackets header ::
        linked.scopes.ancestors node.scope := by
  obtain ⟨close, hpair⟩ := ((balanced_of_link h).exists_pair header).1 hopens
  have hnext : header + 1 < linked.program.brackets.length :=
    Nat.lt_of_le_of_lt hpair.lt hpair.lt_length
  obtain ⟨inner, hinner, -⟩ := exists_node_of_bracket (List.getElem?_eq_getElem hnext)
  have hinside : linked.scopes.ancestors inner.scope =
      Bracket.blockScope linked.program.brackets header ::
        linked.scopes.ancestors node.scope := by
    rw [ancestors_of_node h hinner, ancestors_of_node h hnode, Bracket.scopesAt,
      Bracket.openAt_succ hopens]
    rfl
  have hscope := ScopeTree.eq_of_ancestors_eq_cons hinside
  rwa [← hscope] at hinside

/-- The scope that a header owns lies directly in the scope of the header. -/
theorem parent?_of_opens (h : link statements = .ok linked)
    (hopens : linked.program.brackets[header]? = some .opens)
    (hnode : linked.program.node? header = some node) :
    linked.scopes.parent? (Bracket.blockScope linked.program.brackets header) =
      some node.scope := by
  rw [ScopeTree.parent?_eq, ancestors_of_opens h hopens hnode, List.tail_cons,
    ScopeTree.ancestors_eq_cons (ScopeTree.lt_count_of_mem_ancestors (mem_ancestors_of_node h hnode))]
  rfl

theorem bodyScope_of_node (h : link statements = .ok linked)
    (hnode : linked.program.node? id = some node) {past : Option NodeId} {signature : Signature}
    (haction : node.action = .function past signature) :
    signature.bodyScope = Bracket.blockScope linked.program.brackets id := by
  obtain ⟨layout, hplaced, hresolved⟩ := exists_layout_of_link h
  obtain ⟨form, hdraft, hresolution⟩ := hresolved.exists_draft hnode
  rw [haction] at hresolution
  rw [brackets_of_link h]
  cases hresolution with
  | function hform => exact hplaced.bodyScope_eq hdraft hform

theorem Layout.Resolved.exists_declared {layout : Layout} (h : layout.Resolved linked)
    {draft : Draft} (hdraft : layout.drafts[id]? = some draft) {name : String} {kind : Kind}
    (hdeclaring : Layout.Declaring draft name kind) :
    ∃ node, linked.program.node? id = some node ∧ node.declared? = some (name, kind) ∧
      node.scope = draft.scope := by
  obtain ⟨hform, hoperands⟩ := hdeclaring
  obtain ⟨action, hnode, hresolution⟩ := h.exists_node id draft hdraft
  refine ⟨_, hnode, ?_, rfl⟩
  cases hresolution with
  | declare hfound =>
    rw [hform] at hfound
    cases hfound
    simp [Node.declared?, hoperands]
  | output hfound | input hfound | loop hfound | branch hfound | function hfound | call hfound
  | close hfound | number hfound | text hfound =>
    rw [hform] at hfound
    cases hfound

theorem Layout.Resolved.declaring_of_declared {layout : Layout} (h : layout.Resolved linked)
    (hnode : linked.program.node? id = some node) {name : String} {kind : Kind}
    (hdeclared : node.declared? = some (name, kind)) :
    ∃ draft, layout.drafts[id]? = some draft ∧ Layout.Declaring draft name kind ∧
      draft.scope = node.scope := by
  obtain ⟨form, hdraft, hresolution⟩ := h.exists_draft hnode
  unfold Node.declared? at hdeclared
  split at hdeclared
  · rename_i haction hoperands
    cases hdeclared
    rw [haction] at hresolution
    cases hresolution with
    | declare hform => exact ⟨_, hdraft, ⟨hform, hoperands⟩, rfl⟩
  · cases hdeclared

/-- Exactly the `number` and `string` lines declare variables. -/
theorem declared?_iff (h : link statements = .ok linked)
    (hnode : linked.program.node? id = some node) (kind : Kind) :
    node.location.keyword = kind.keyword ↔ ∃ name, node.declared? = some (name, kind) := by
  obtain ⟨layout, hplaced, hresolved⟩ := exists_layout_of_link h
  obtain ⟨form, hdraft, -⟩ := hresolved.exists_draft hnode
  refine (hplaced.declaring_iff hdraft kind).trans (exists_congr fun name ↦ ?_)
  constructor
  · intro hdeclaring
    obtain ⟨found, hfound, hdeclared, -⟩ := hresolved.exists_declared hdraft hdeclaring
    rw [hnode] at hfound
    cases hfound
    exact hdeclared
  · intro hdeclared
    obtain ⟨draft, hfound, hdeclaring, -⟩ := hresolved.declaring_of_declared hnode hdeclared
    rw [hdraft] at hfound
    cases hfound
    exact hdeclaring

/-- What is bound when the program starts was declared. -/
theorem declares_of_local? (h : link statements = .ok linked) {scope : ScopeId} {name : String}
    {value : Value} (hlocal : linked.scopes.local? scope name = some value) :
    ∃ kind, linked.program.Declares scope name kind ∧ value = kind.zero := by
  obtain ⟨layout, hplaced, hresolved⟩ := exists_layout_of_link h
  rw [hresolved.scopes_eq] at hlocal
  obtain ⟨id, draft, kind, hdraft, hdeclaring, rfl, rfl⟩ := hplaced.exists_declaring hlocal
  obtain ⟨node, hnode, hdeclared, hscope⟩ := hresolved.exists_declared hdraft hdeclaring
  exact ⟨kind, ⟨id, node, hnode, hdeclared, hscope⟩, rfl⟩

/--
The scopes of a linked program mirror its blocks: besides the root there is one for each header, in
the order of the headers, directly in the scope of the header; a header is in the scope of the
block around it, and an `end` in that of the block it closes. A scope binds what the `number` and
`string` lines of the scope declare, each name by one line and with the zero of its kind, and
nothing else: no parameter.
-/
structure MirrorsBlocks (linked : Linked) : Prop where
  count_eq : linked.scopes.count = linked.program.headers.length + 1
  parent?_eq : ∀ (index header : Nat) (node : Node),
    linked.program.headers[index]? = some header → linked.program.node? header = some node →
    linked.scopes.parent? (index + 1) = some node.scope
  scope_inside : ∀ (index header close id : Nat) (node : Node),
    linked.program.headers[index]? = some header →
    Bracket.Innermost linked.program.brackets header close id →
    linked.program.node? id = some node → node.scope = index + 1
  scope_outside : ∀ (id : Nat) (node : Node),
    (∀ header close, Bracket.Pair linked.program.brackets header close → header < id →
      close < id) →
    linked.program.node? id = some node → node.scope = rootScope
  bodyScope_eq : ∀ (index header : Nat) (node : Node) (past : Option NodeId)
    (signature : Signature), linked.program.headers[index]? = some header →
    linked.program.node? header = some node → node.action = .function past signature →
    signature.bodyScope = index + 1
  declared?_iff : ∀ (id : Nat) (node : Node) (kind : Kind), linked.program.node? id = some node →
    (node.location.keyword = kind.keyword ↔ ∃ name, node.declared? = some (name, kind))
  mem_localEntries_iff : ∀ (scope : ScopeId) (name : String) (value : Value),
    (name, value) ∈ linked.scopes.localEntries scope ↔
      ∃ kind, linked.program.Declares scope name kind ∧ value = kind.zero
  nodup_localEntries : ∀ scope, ((linked.scopes.localEntries scope).map Prod.fst).Nodup
  eq_of_declared : ∀ (id other : Nat) (node otherNode : Node) (name : String)
    (kind otherKind : Kind), linked.program.node? id = some node →
    linked.program.node? other = some otherNode → node.declared? = some (name, kind) →
    otherNode.declared? = some (name, otherKind) → node.scope = otherNode.scope → id = other

theorem mirrorsBlocks_of_link (h : link statements = .ok linked) : MirrorsBlocks linked where
  count_eq := by
    obtain ⟨layout, hplaced, hresolved⟩ := exists_layout_of_link h
    rw [hresolved.scopes_eq, hplaced.scoped.count_eq, Program.headers, Bracket.length_headers,
      brackets_of_link h]
  parent?_eq := by
    intro index header node hheader hnode
    obtain ⟨hopens, hscope⟩ := Bracket.opens_of_headers hheader
    rw [← hscope]
    exact parent?_of_opens h hopens hnode
  scope_inside := by
    intro index header close id node hheader hinside hnode
    rw [scope_of_node h hnode, Bracket.scopeAt_eq, hinside.head?_openAt (balanced_of_link h)]
    exact (Bracket.opens_of_headers hheader).2
  scope_outside := by
    intro id node houtside hnode
    rw [scope_of_node h hnode, Bracket.scopeAt_eq,
      Bracket.openAt_eq_nil (balanced_of_link h) houtside]
    rfl
  bodyScope_eq := by
    intro index header node past signature hheader hnode haction
    exact (bodyScope_of_node h hnode haction).trans (Bracket.opens_of_headers hheader).2
  declared?_iff := fun _ _ kind hnode ↦ declared?_iff h hnode kind
  mem_localEntries_iff := by
    intro scope name value
    rw [ScopeTree.mem_localEntries_iff]
    constructor
    · exact declares_of_local? h
    · rintro ⟨kind, hdeclares, rfl⟩
      exact local?_of_declares h hdeclares
  nodup_localEntries := fun _ ↦ ScopeTree.nodup_localEntries
  eq_of_declared := by
    intro id other node otherNode name kind otherKind hnode hother hdeclared hagain hscope
    obtain ⟨layout, hplaced, hresolved⟩ := exists_layout_of_link h
    obtain ⟨draft, hdraft, hdeclaring, hfirst⟩ :=
      hresolved.declaring_of_declared hnode hdeclared
    obtain ⟨otherDraft, hotherDraft, hotherDeclaring, hsecond⟩ :=
      hresolved.declaring_of_declared hother hagain
    rw [← hfirst, ← hsecond] at hscope
    exact hplaced.eq_of_declaring hdraft hotherDraft hdeclaring hotherDeclaring hscope

end LineScript
