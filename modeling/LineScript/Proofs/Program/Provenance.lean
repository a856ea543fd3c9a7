import LineScript.Proofs.Program.Rejection

/-!
# Where statements come from

Files and lines are for messages. To forget them before a program is linked is to forget them after
it: linking looks at the words of statements only, and passes the rest on. So of two sequences of
statements with the same words either both are linked, into programs that differ in nothing else,
or both are refused at the same position and for the same fault.
-/

namespace LineScript

/-- A location without the file and the line. -/
def Location.forget (location : Location) : Location :=
  ⟨"", 0, location.keyword⟩

def Statement.forget (s : Statement) : Statement :=
  ⟨"", 0, s.keyword, s.operands⟩

def Draft.forget (draft : Draft) : Draft :=
  { draft with location := draft.location.forget }

/-- A layout without the places that its drafts come from. -/
def Layout.forget (layout : Layout) : Layout :=
  { layout with drafts := layout.drafts.map Draft.forget }

def Node.forget (node : Node) : Node :=
  { node with location := node.location.forget }

def Program.forget (program : Program) : Program :=
  ⟨program.nodes.map Node.forget⟩

def Linked.forget (linked : Linked) : Linked :=
  ⟨linked.program.forget, linked.scopes⟩

def LinkError.forget (error : LinkError) : LinkError :=
  ⟨error.location.forget, error.fault⟩

open Chain (carry carry_eq_ok_iff carry_eq_error_iff)

namespace Layout

variable {layout : Layout}

@[simp]
theorem scopes_forget : layout.forget.scopes = layout.scopes :=
  rfl

@[simp]
theorem blocks_forget : layout.forget.blocks = layout.blocks :=
  rfl

@[simp]
theorem scope_forget : layout.forget.scope = layout.scope :=
  rfl

@[simp]
theorem targetKind?_forget (name : String) :
    layout.forget.targetKind? name = layout.targetKind? name :=
  rfl

@[simp]
theorem size_drafts_forget : layout.forget.drafts.size = layout.drafts.size :=
  Array.size_map

theorem getElem?_drafts_forget (id : NodeId) :
    layout.forget.drafts[id]? = layout.drafts[id]?.map Draft.forget :=
  Array.getElem?_map

@[simp]
theorem formAt?_forget (id : NodeId) : layout.forget.formAt? id = layout.formAt? id := by
  rw [formAt?, getElem?_drafts_forget, Option.map_map]
  rfl

@[simp]
theorem callee?_forget (name : String) : layout.forget.callee? name = layout.callee? name := by
  simp only [callee?, formAt?_forget, scopes_forget, scope_forget]

/-- What a step of the first pass leads to, without the places of the drafts. -/
def forgetPlaced : Layout × Form → Layout × Form
  | (layout, form) => (layout.forget, form)

theorem placeVariable_forget (kind : Kind) (operands : List Operand) :
    layout.forget.placeVariable kind operands =
      carry forgetPlaced id (layout.placeVariable kind operands) := by
  unfold placeVariable
  split
  · rename_i name
    rw [scopes_forget, scope_forget]
    cases layout.scopes.declare layout.scope name kind <;> rfl
  · rfl

theorem placeFunction_forget (operands : List Operand) :
    layout.forget.placeFunction operands =
      carry forgetPlaced id (layout.placeFunction operands) := by
  unfold placeFunction
  split
  · rfl
  · rename_i name parameters _
    rw [scopes_forget, scope_forget, size_drafts_forget]
    cases layout.scopes.declareFunction layout.scope name layout.drafts.size <;> rfl

theorem placeCall_forget (operands : List Operand) :
    layout.forget.placeCall operands = carry forgetPlaced id (layout.placeCall operands) := by
  unfold placeCall
  split
  · rfl
  · rename_i name arguments
    rw [callee?_forget]
    cases layout.callee? name.raw with
    | none => rfl
    | some found =>
      obtain ⟨callee, signature⟩ := found
      dsimp only
      split <;> rfl

theorem placeEnd_forget :
    layout.forget.placeEnd = carry forgetPlaced id layout.placeEnd := by
  unfold placeEnd
  rw [blocks_forget]
  cases layout.blocks <;> rfl

/-- What a statement is does not depend on where the statements before it come from. -/
theorem interpret_forget (keyword : String) (operands : List Operand) :
    layout.forget.interpret keyword operands =
      carry forgetPlaced id (layout.interpret keyword operands) := by
  unfold interpret
  split
  · exact placeEnd_forget
  · rfl
  · rfl
  · exact placeVariable_forget _ _
  · exact placeVariable_forget _ _
  · exact placeFunction_forget _
  · exact placeCall_forget _
  · rfl
  · rfl
  · rw [targetKind?_forget]
    cases layout.targetKind? keyword <;> rfl

theorem place_forget (statement : Statement) :
    layout.forget.place statement.forget =
      carry forget LinkError.forget (layout.place statement) := by
  unfold place
  simp only [Statement.forget, interpret_forget]
  cases layout.interpret statement.keyword (Operand.classify statement.operands) with
  | error fault => rfl
  | ok placed =>
    obtain ⟨after, form⟩ := placed
    simp only [carry, forgetPlaced, forget, Array.map_push]
    rfl

theorem forget_start : start.forget = start := by
  simp [forget, start]

theorem ofStatements_forget (statements : List Statement) :
    ofStatements (statements.map Statement.forget) =
      carry forget LinkError.forget (ofStatements statements) := by
  have hplace : ∀ (layout : Layout) (statement : Statement),
      carry forget LinkError.forget (layout.place statement) =
        layout.forget.place statement.forget :=
    fun _ statement ↦ (place_forget statement).symm
  have hfold := Chain.carry_foldlM hplace statements start
  rw [forget_start] at hfold
  exact hfold.symm

@[simp]
theorem brackets_forget : layout.forget.brackets = layout.brackets := by
  unfold brackets forget
  rw [Array.toList_map, List.map_map]
  rfl

@[simp]
theorem next?_forget (id : NodeId) : layout.forget.next? id = layout.next? id := by
  rw [next?, size_drafts_forget, next?]

@[simp]
theorem past_forget (header : NodeId) (keyword : String) :
    layout.forget.past header keyword = layout.past header keyword := by
  simp only [past, brackets_forget, next?_forget]

@[simp]
theorem closedBlock_forget (close : NodeId) (keyword : String) :
    layout.forget.closedBlock close keyword = layout.closedBlock close keyword := by
  simp only [closedBlock, brackets_forget, formAt?_forget]

/-- What a statement does not depend on where it comes from. -/
theorem resolve_forget (id : NodeId) (draft : Draft) :
    layout.forget.resolve id draft.forget = layout.resolve id draft := by
  simp only [resolve, Draft.forget, Location.forget, past_forget, closedBlock_forget]

theorem resolveNode_forget (draft : Draft) (id : NodeId) :
    layout.forget.resolveNode draft.forget id =
      carry Node.forget LinkError.forget (layout.resolveNode draft id) := by
  unfold resolveNode
  rw [resolve_forget]
  cases layout.resolve id draft <;> rfl

theorem finish_forget :
    layout.forget.finish = carry Linked.forget LinkError.forget layout.finish := by
  have hdrafts : layout.forget.drafts.toList.zipIdx =
      layout.drafts.toList.zipIdx.map (Prod.map Draft.forget id) := by
    rw [forget, Array.toList_map, List.zipIdx_map]
  have hnodes : carry (List.map Node.forget) LinkError.forget
      (layout.drafts.toList.zipIdx.mapM fun entry ↦ layout.resolveNode entry.1 entry.2) =
      layout.forget.drafts.toList.zipIdx.mapM
        fun entry ↦ layout.forget.resolveNode entry.1 entry.2 := by
    rw [hdrafts]
    exact Chain.carry_mapM (fun entry ↦ (resolveNode_forget entry.1 entry.2).symm) _
  change (layout.forget.drafts.toList.zipIdx.mapM
    fun entry ↦ layout.forget.resolveNode entry.1 entry.2) >>= _ = _
  rw [← hnodes]
  refine (Chain.carry_bind fun nodes ↦ ?_).symm
  exact congrArg (fun array ↦ Except.ok (Linked.mk ⟨array⟩ layout.scopes)) List.map_toArray

variable {statements : List Statement} {position : Nat} {error : LinkError}

theorem stopsPlacing_forget_iff :
    StopsPlacing (statements.map Statement.forget) position error ↔
      ∃ found, StopsPlacing statements position found ∧ found.forget = error := by
  unfold StopsPlacing
  rw [← List.map_take, ofStatements_forget, List.getElem?_map]
  constructor
  · rintro ⟨after, last, hafter, hlast, hplace⟩
    obtain ⟨layout, hlayout, rfl⟩ := carry_eq_ok_iff.1 hafter
    obtain ⟨statement, hstatement, rfl⟩ := Option.map_eq_some_iff.1 hlast
    rw [place_forget] at hplace
    obtain ⟨found, hfound, rfl⟩ := carry_eq_error_iff.1 hplace
    exact ⟨found, ⟨layout, statement, hlayout, hstatement, hfound⟩, rfl⟩
  · rintro ⟨found, ⟨layout, statement, hlayout, hstatement, hfound⟩, rfl⟩
    refine ⟨layout.forget, statement.forget, ?_, ?_, ?_⟩
    · exact carry_eq_ok_iff.2 ⟨layout, hlayout, rfl⟩
    · rw [hstatement, Option.map_some]
    · rw [place_forget]
      exact carry_eq_error_iff.2 ⟨found, hfound, rfl⟩

theorem stopsResolving_forget_iff :
    StopsResolving layout.forget position error ↔
      ∃ found, StopsResolving layout position found ∧ found.forget = error := by
  unfold StopsResolving
  simp only [getElem?_drafts_forget, Option.map_eq_some_iff]
  constructor
  · rintro ⟨⟨last, ⟨draft, hdraft, rfl⟩, hresolve⟩, haccepted⟩
    rw [resolveNode_forget] at hresolve
    obtain ⟨found, hfound, rfl⟩ := carry_eq_error_iff.1 hresolve
    refine ⟨found, ⟨⟨draft, hdraft, hfound⟩, fun earlier hlt before hbefore ↦ ?_⟩, rfl⟩
    obtain ⟨node, hnode⟩ := haccepted earlier hlt before.forget ⟨before, hbefore, rfl⟩
    rw [resolveNode_forget] at hnode
    obtain ⟨original, horiginal, -⟩ := carry_eq_ok_iff.1 hnode
    exact ⟨original, horiginal⟩
  · rintro ⟨found, ⟨⟨draft, hdraft, hfound⟩, haccepted⟩, rfl⟩
    refine ⟨⟨draft.forget, ⟨draft, hdraft, rfl⟩, ?_⟩, ?_⟩
    · rw [resolveNode_forget]
      exact carry_eq_error_iff.2 ⟨found, hfound, rfl⟩
    · rintro earlier hlt - ⟨before, hbefore, rfl⟩
      obtain ⟨node, hnode⟩ := haccepted earlier hlt before hbefore
      rw [resolveNode_forget]
      exact ⟨node.forget, carry_eq_ok_iff.2 ⟨node, hnode, rfl⟩⟩

end Layout

variable {statements statements' : List Statement} {position : Nat} {error : LinkError}

theorem stopsAt_forget_iff : StopsAt (statements.map Statement.forget) position error ↔
    ∃ found, StopsAt statements position found ∧ found.forget = error := by
  unfold StopsAt
  rw [Layout.stopsPlacing_forget_iff, Layout.ofStatements_forget]
  constructor
  · rintro (⟨found, hstops, rfl⟩ | ⟨after, hafter, hstops⟩)
    · exact ⟨found, .inl hstops, rfl⟩
    · obtain ⟨layout, hlayout, rfl⟩ := carry_eq_ok_iff.1 hafter
      obtain ⟨found, hfound, rfl⟩ := Layout.stopsResolving_forget_iff.1 hstops
      exact ⟨found, .inr ⟨layout, hlayout, hfound⟩, rfl⟩
  · rintro ⟨found, hstops | ⟨layout, hlayout, hstops⟩, rfl⟩
    · exact .inl ⟨found, hstops, rfl⟩
    · refine .inr ⟨layout.forget, carry_eq_ok_iff.2 ⟨layout, hlayout, rfl⟩, ?_⟩
      exact Layout.stopsResolving_forget_iff.2 ⟨found, hstops, rfl⟩

theorem link_forget (statements : List Statement) :
    link (statements.map Statement.forget) =
      carry Linked.forget LinkError.forget (link statements) := by
  unfold link
  rw [Layout.ofStatements_forget]
  exact (Chain.carry_bind fun _ ↦ Layout.finish_forget.symm).symm

theorem Statement.forget_eq_of_words_eq {s s' : Statement} (h : s'.words = s.words) :
    s'.forget = s.forget := by
  obtain ⟨hkeyword, hoperands⟩ := List.cons.inj h
  rw [forget, hkeyword, hoperands, forget]

/-- Statements with the same words are the same without the places they come from. -/
theorem map_forget_eq_of_words_eq
    (h : statements'.map Statement.words = statements.map Statement.words) :
    statements'.map Statement.forget = statements.map Statement.forget := by
  induction statements' generalizing statements with
  | nil =>
    cases statements with
    | nil => rfl
    | cons first rest => cases h
  | cons first' rest' ih =>
    cases statements with
    | nil => cases h
    | cons first rest =>
      obtain ⟨hfirst, hrest⟩ := List.cons.inj h
      rw [List.map_cons, List.map_cons, Statement.forget_eq_of_words_eq hfirst, ih hrest]

end LineScript
