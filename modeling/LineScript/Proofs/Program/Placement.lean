import LineScript.Program.Link
import LineScript.Proofs.Chain
import Mathlib.Data.List.Induction

/-!
# What the first pass of linking can do

One statement is placed in one of nine ways, which `Placement` lists with all that is checked and
all that changes. What holds of every layout that placing statements leads to is shown from it, one
statement at a time: a statement placed earlier keeps its draft, and a call names a function whose
header was placed before it.
-/

namespace LineScript

/-- What a keyword does to the nesting of blocks. -/
def Bracket.ofKeyword : String → Bracket
  | "while" | "if" | "function" => .opens
  | "end" => .closes
  | _ => .plain

def Statement.bracket (s : Statement) : Bracket :=
  .ofKeyword s.keyword

def Statement.location (s : Statement) : Location :=
  ⟨s.file, s.line, s.keyword⟩

namespace Layout

def keywords : List String :=
  ["end", "while", "if", "number", "string", "function", "call", "out", "in"]

/-- The ways in which a statement is placed: the layout after it, and the form it has. -/
inductive Placement (layout : Layout) (keyword : String) (operands : List Operand) :
    Layout → Form → Prop where
  | declare {kind : Kind} {name : String} {scopes : ScopeTree} :
      keyword = kind.keyword → operands = [.name name] →
      layout.scopes.declare layout.scope name kind = .ok scopes →
      Placement layout keyword operands { layout with scopes } (.declare kind)
  | output : keyword = "out" → Placement layout keyword operands layout .output
  | input : keyword = "in" → Placement layout keyword operands layout .input
  | loop : keyword = "while" → Placement layout keyword operands (layout.openBlock []) .loop
  | branch : keyword = "if" → Placement layout keyword operands (layout.openBlock []) .branch
  | function {name : String} {parameters : List Parameter} {scopes : ScopeTree} :
      keyword = "function" → readHeader operands = .ok (name, parameters) →
      layout.scopes.declareFunction layout.scope name layout.drafts.size = .ok scopes →
      Placement layout keyword operands ({ layout with scopes }.openBlock parameters)
        (.function ⟨name, parameters, layout.scopes.nextId⟩)
  | call {name : Operand} {arguments : List Operand} {callee : NodeId} {signature : Signature} :
      keyword = "call" → operands = name :: arguments →
      layout.callee? name.raw = some (callee, signature) →
      signature.parameters.length = arguments.length →
      Placement layout keyword operands layout
        (.call callee signature.name (List.zipWith Argument.mk signature.parameters arguments))
  | close {block : Block} {outer : List Block} :
      keyword = "end" → layout.blocks = block :: outer →
      Placement layout keyword operands { layout with blocks := outer } .close
  | assign {kind : Kind} :
      keyword ∉ keywords → layout.targetKind? keyword = some kind →
      Placement layout keyword operands layout (.assign kind)

variable {layout after : Layout} {keyword : String} {operands : List Operand} {form : Form}

theorem placement_of_placeVariable {kind : Kind} (hkeyword : keyword = kind.keyword)
    (h : layout.placeVariable kind operands = .ok (after, form)) :
    Placement layout keyword operands after form := by
  unfold placeVariable at h
  split at h
  · split at h
    · rename_i name scopes hdeclare
      obtain ⟨rfl, rfl⟩ := Prod.mk.inj (Except.ok.inj h)
      exact .declare hkeyword rfl hdeclare
    · exact absurd h (by simp)
  · exact absurd h (by simp)

theorem placement_of_placeFunction (hkeyword : keyword = "function")
    (h : layout.placeFunction operands = .ok (after, form)) :
    Placement layout keyword operands after form := by
  unfold placeFunction at h
  split at h
  · exact absurd h (by simp)
  · rename_i name parameters hheader
    split at h
    · exact absurd h (by simp)
    · rename_i scopes hdeclare
      obtain ⟨rfl, rfl⟩ := Prod.mk.inj (Except.ok.inj h)
      exact .function hkeyword hheader hdeclare

theorem placement_of_placeCall (hkeyword : keyword = "call")
    (h : layout.placeCall operands = .ok (after, form)) :
    Placement layout keyword operands after form := by
  unfold placeCall at h
  split at h
  · exact absurd h (by simp)
  · split at h
    · exact absurd h (by simp)
    · rename_i callee signature hcallee
      split at h
      · rename_i hlength
        obtain ⟨rfl, rfl⟩ := Prod.mk.inj (Except.ok.inj h)
        exact .call hkeyword rfl hcallee hlength
      · exact absurd h (by simp)

theorem placement_of_placeEnd (hkeyword : keyword = "end")
    (h : layout.placeEnd = .ok (after, form)) : Placement layout keyword operands after form := by
  unfold placeEnd at h
  split at h
  · exact absurd h (by simp)
  · rename_i block outer hblocks
    obtain ⟨rfl, rfl⟩ := Prod.mk.inj (Except.ok.inj h)
    exact .close hkeyword hblocks

/-- Every statement that is accepted is placed in one of the nine ways. -/
theorem placement_of_interpret (h : layout.interpret keyword operands = .ok (after, form)) :
    Placement layout keyword operands after form := by
  unfold interpret at h
  split at h
  · exact placement_of_placeEnd rfl h
  · obtain ⟨rfl, rfl⟩ := Prod.mk.inj (Except.ok.inj h)
    exact .loop rfl
  · obtain ⟨rfl, rfl⟩ := Prod.mk.inj (Except.ok.inj h)
    exact .branch rfl
  · exact placement_of_placeVariable rfl h
  · exact placement_of_placeVariable rfl h
  · exact placement_of_placeFunction rfl h
  · exact placement_of_placeCall rfl h
  · obtain ⟨rfl, rfl⟩ := Prod.mk.inj (Except.ok.inj h)
    exact .output rfl
  · obtain ⟨rfl, rfl⟩ := Prod.mk.inj (Except.ok.inj h)
    exact .input rfl
  · split at h
    · rename_i kind hkind
      obtain ⟨rfl, rfl⟩ := Prod.mk.inj (Except.ok.inj h)
      refine .assign ?_ hkind
      simp only [keywords, List.mem_cons, List.not_mem_nil, or_false, not_or]
      exact ⟨‹_›, ‹_›, ‹_›, ‹_›, ‹_›, ‹_›, ‹_›, ‹_›, ‹_›⟩
    · exact absurd h (by simp)

/-- Only keeping the draft itself is left to do when a statement has been interpreted. -/
theorem Placement.drafts_eq (h : Placement layout keyword operands after form) :
    after.drafts = layout.drafts := by
  cases h <;> rfl

/-- The form of a statement opens and closes blocks as its keyword says. -/
theorem Placement.bracket_eq (h : Placement layout keyword operands after form) :
    form.bracket = .ofKeyword keyword := by
  cases h with
  | @declare kind _ _ hkeyword =>
    subst hkeyword
    cases kind <;> rfl
  | output hkeyword => rw [hkeyword]; rfl
  | input hkeyword => rw [hkeyword]; rfl
  | loop hkeyword => rw [hkeyword]; rfl
  | branch hkeyword => rw [hkeyword]; rfl
  | function hkeyword => rw [hkeyword]; rfl
  | call hkeyword => rw [hkeyword]; rfl
  | close hkeyword => rw [hkeyword]; rfl
  | assign hkeyword =>
    simp only [keywords, List.mem_cons, List.not_mem_nil, or_false, not_or] at hkeyword
    unfold Bracket.ofKeyword
    split <;> simp_all [Form.bracket]

/-- A statement that is placed has been interpreted, and its draft comes last. -/
theorem place_eq_ok_iff {statement : Statement} : layout.place statement = .ok after ↔
    ∃ interpreted form, layout.interpret statement.keyword (Operand.classify statement.operands) =
        .ok (interpreted, form) ∧
      after = { interpreted with
        drafts := layout.drafts.push
          ⟨statement.location, Operand.classify statement.operands, layout.scope, form⟩ } := by
  unfold place
  dsimp only
  constructor
  · intro h
    split at h
    · exact absurd h (by simp)
    · rename_i interpreted form hinterpret
      refine ⟨interpreted, form, hinterpret, ?_⟩
      rw [← (placement_of_interpret hinterpret).drafts_eq]
      exact (Except.ok.inj h).symm
  · rintro ⟨interpreted, form, hinterpret, rfl⟩
    rw [hinterpret, ← (placement_of_interpret hinterpret).drafts_eq]
    rfl

theorem exists_placement {statement : Statement} (h : layout.place statement = .ok after) :
    ∃ interpreted form,
      Placement layout statement.keyword (Operand.classify statement.operands) interpreted form ∧
      after = { interpreted with
        drafts := layout.drafts.push
          ⟨statement.location, Operand.classify statement.operands, layout.scope, form⟩ } := by
  obtain ⟨interpreted, form, hinterpret, hafter⟩ := place_eq_ok_iff.1 h
  exact ⟨interpreted, form, placement_of_interpret hinterpret, hafter⟩

/-- What placing statements one after the other leads to. -/
inductive Placed : List Statement → Layout → Prop where
  | start : Placed [] start
  | place {statements : List Statement} {statement : Statement} {layout after : Layout} :
      Placed statements layout → layout.place statement = .ok after →
      Placed (statements ++ [statement]) after

theorem placed_of_ofStatements {statements : List Statement}
    (h : ofStatements statements = .ok layout) : Placed statements layout := by
  induction statements using List.reverseRecOn generalizing layout with
  | nil =>
    cases h
    exact .start
  | append_singleton statements statement ih =>
    rw [ofStatements, List.foldlM_append] at h
    obtain ⟨before, hbefore, hlast⟩ := Chain.bind_eq_ok_iff.1 h
    obtain ⟨placed, hplace, hresult⟩ := Chain.bind_eq_ok_iff.1 hlast
    cases hresult
    exact (ih hbefore).place hplace

/-- There is one layout that statements lead to. -/
theorem Placed.ofStatements_eq {statements : List Statement} (h : Placed statements layout) :
    ofStatements statements = .ok layout := by
  induction h with
  | start => rfl
  | @place statements statement layout after _ hplace ih =>
    rw [ofStatements, List.foldlM_append]
    refine Chain.bind_eq_ok_iff.2 ⟨layout, ih, ?_⟩
    rw [List.foldlM_cons, hplace]
    rfl

variable {statements : List Statement}

theorem Placed.size_drafts (h : Placed statements layout) :
    layout.drafts.size = statements.length := by
  induction h with
  | start => rfl
  | place _ hplace ih =>
    obtain ⟨interpreted, form, -, rfl⟩ := exists_placement hplace
    rw [Array.size_push, ih, List.length_append, List.length_singleton]

/-- A draft that was placed earlier is kept. -/
theorem getElem?_push_of_some {drafts : Array Draft} {id : Nat} {draft : Draft}
    (h : drafts[id]? = some draft) (last : Draft) : (drafts.push last)[id]? = some draft := by
  obtain ⟨hlt, -⟩ := Array.getElem?_eq_some_iff.1 h
  rw [Array.getElem?_push, if_neg (Nat.ne_of_lt hlt), h]

/-- The draft of each statement stands at its position, as the statement was interpreted. -/
theorem Placed.exists_interpret (h : Placed statements layout) {id : Nat} {statement : Statement}
    (hstatement : statements[id]? = some statement) :
    ∃ before after form, Placed (statements.take id) before ∧
      before.interpret statement.keyword (Operand.classify statement.operands) =
        .ok (after, form) ∧
      layout.drafts[id]? = some
        ⟨statement.location, Operand.classify statement.operands, before.scope, form⟩ := by
  induction h with
  | start => exact absurd hstatement (by simp)
  | @place earlier last before _ hplaced hplace ih =>
    have hsize := hplaced.size_drafts
    obtain ⟨interpreted, form, hinterpret, rfl⟩ := place_eq_ok_iff.1 hplace
    rw [List.getElem?_append] at hstatement
    split at hstatement
    · rename_i hlt
      obtain ⟨first, after, found, hfirst, hfound, hdraft⟩ := ih hstatement
      refine ⟨first, after, found, ?_, hfound, ?_⟩
      · rwa [List.take_append_of_le_length (by omega)]
      · rwa [Array.getElem?_push, if_neg (by omega)]
    · rw [List.getElem?_singleton] at hstatement
      split at hstatement
      · cases hstatement
        have hid : id = earlier.length := by omega
        refine ⟨before, interpreted, form, ?_, hinterpret, ?_⟩
        · rwa [hid, List.take_left]
        · rw [Array.getElem?_push, if_pos (by omega)]
      · exact absurd hstatement (by simp)

/-- The draft of each statement stands at its position, and says how the statement was placed. -/
theorem Placed.exists_draft (h : Placed statements layout) {id : Nat} {statement : Statement}
    (hstatement : statements[id]? = some statement) :
    ∃ before after form, Placed (statements.take id) before ∧
      Placement before statement.keyword (Operand.classify statement.operands) after form ∧
      layout.drafts[id]? = some
        ⟨statement.location, Operand.classify statement.operands, before.scope, form⟩ := by
  obtain ⟨before, after, form, hbefore, hinterpret, hdraft⟩ := h.exists_interpret hstatement
  exact ⟨before, after, form, hbefore, placement_of_interpret hinterpret, hdraft⟩

/-- A draft says how the statement at its position was placed. -/
theorem Placed.placement_of_draft (h : Placed statements layout) {id : Nat} {draft : Draft}
    (hdraft : layout.drafts[id]? = some draft) :
    ∃ before after, Placed (statements.take id) before ∧
      Placement before draft.location.keyword draft.operands after draft.form ∧
      draft.scope = before.scope := by
  obtain ⟨hlt, -⟩ := Array.getElem?_eq_some_iff.1 hdraft
  rw [h.size_drafts] at hlt
  obtain ⟨before, after, form, hbefore, hplacement, hfound⟩ :=
    h.exists_draft (List.getElem?_eq_getElem hlt)
  rw [hdraft] at hfound
  cases hfound
  exact ⟨before, after, hbefore, hplacement, rfl⟩

/-- A call names a function that was declared before it, and has an operand for each parameter. -/
theorem Placed.exists_callee (h : Placed statements layout) {id : Nat} {draft : Draft}
    (hdraft : layout.drafts[id]? = some draft) {callee : NodeId} {function : String}
    {arguments : List Argument} (hcall : draft.form = .call callee function arguments) :
    callee < id ∧ ∃ header signature operands, layout.drafts[callee]? = some header ∧
      header.form = .function signature ∧ function = signature.name ∧
      signature.parameters.length = operands.length ∧
      arguments = List.zipWith Argument.mk signature.parameters operands := by
  induction h generalizing id draft with
  | start => exact absurd hdraft (by simp [Layout.start])
  | @place statements statement layout after hplaced hplace ih =>
    obtain ⟨interpreted, form, hplacement, rfl⟩ := exists_placement hplace
    rw [Array.getElem?_push] at hdraft
    split at hdraft
    · rename_i hid
      subst hid
      have hform : form = .call callee function arguments := by
        rw [← hcall, ← Option.some.inj hdraft]
      subst hform
      cases hplacement with
      | call _ _ hcallee hlength =>
        unfold callee? at hcallee
        split at hcallee
        · exact absurd hcallee (by simp)
        · split at hcallee
          · rename_i signature hform
            obtain ⟨rfl, rfl⟩ := Prod.mk.inj (Option.some.inj hcallee)
            obtain ⟨header, hheader, hsignature⟩ := Option.map_eq_some_iff.1 hform
            obtain ⟨hlt, -⟩ := Array.getElem?_eq_some_iff.1 hheader
            exact ⟨hlt, header, signature, _, getElem?_push_of_some hheader _, hsignature, rfl,
              hlength, rfl⟩
          · exact absurd hcallee (by simp)
    · obtain ⟨hlt, header, signature, operands, hheader, hrest⟩ := ih hdraft hcall
      exact ⟨hlt, header, signature, operands, getElem?_push_of_some hheader _, hrest⟩

end Layout

end LineScript
