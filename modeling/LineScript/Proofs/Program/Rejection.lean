import LineScript.Proofs.Bracket.Unmatched
import LineScript.Proofs.Program.Blocks

/-!
# Programs that do not link

Linking stops at the first statement that a pass does not accept. The passes find brackets without
a partner by different means: the first keeps the open blocks and refuses an `end` where there are
none, the second scans for the partners of headers and of ends. Together they accept exactly the
balanced programs, as far as brackets go, and a program that is not balanced is refused at the
bracket that is to blame, unless another fault is found before.
-/

namespace LineScript

/-- Whether a fault is a bracket without a partner. -/
def LinkFault.isUnmatched : LinkFault → Bool
  | unmatchedBlock _ => true
  | _ => false

def bracketsOfLines (lines : List (List Word)) : List Bracket :=
  (statementsOfLines lines).map Statement.bracket

/-- Only `end` closes blocks. -/
theorem Bracket.eq_end_of_ofKeyword {keyword : String} (h : ofKeyword keyword = .closes) :
    keyword = "end" := by
  unfold ofKeyword at h
  split at h
  · cases h
  · cases h
  · cases h
  · rfl
  · cases h

namespace Layout

variable {layout after : Layout} {statements : List Statement} {id : NodeId} {draft : Draft}

/-! ## The first pass -/

/-- A header opens one block more, and an `end` leaves one less. -/
theorem Placement.length_blocks {keyword : String} {operands : List Operand} {form : Form}
    (h : layout.Placement keyword operands after form) :
    match form.bracket with
    | .opens => after.blocks.length = layout.blocks.length + 1
    | .closes => after.blocks.length + 1 = layout.blocks.length
    | .plain => after.blocks.length = layout.blocks.length := by
  cases h with
  | close _ hblocks => simp [Form.bracket, hblocks]
  | declare | output | input | loop | branch | function | call | assign => rfl

theorem Placed.brackets_eq (h : Placed statements layout) :
    layout.brackets = statements.map Statement.bracket := by
  induction h with
  | start => rfl
  | place _ hplace ih =>
    obtain ⟨interpreted, form, hplacement, rfl⟩ := exists_placement hplace
    rw [List.map_append, ← ih, brackets, Array.toList_push, List.map_append, brackets]
    exact congrArg (_ ++ [·]) hplacement.bracket_eq

/-- The blocks that are open are those that were opened and not closed. -/
theorem Placed.count_opens (h : Placed statements layout) :
    (statements.map Statement.bracket).count .opens =
      (statements.map Statement.bracket).count .closes + layout.blocks.length := by
  induction h with
  | start => rfl
  | place _ hplace ih =>
    obtain ⟨interpreted, form, hplacement, rfl⟩ := exists_placement hplace
    have hlength := hplacement.length_blocks
    rw [hplacement.bracket_eq] at hlength
    rw [List.map_append, List.count_append, List.count_append, ih]
    change _ + [Bracket.ofKeyword _].count _ = _ + [Bracket.ofKeyword _].count _ +
      interpreted.blocks.length
    split at hlength <;> rename_i hbracket <;> rw [hbracket] <;> simp <;> omega

theorem Placed.take (h : Placed statements layout) (count : Nat) :
    ∃ before, Placed (statements.take count) before := by
  induction h with
  | start => exact ⟨Layout.start, by simpa using Placed.start⟩
  | @place earlier statement _ _ hplaced hplace ih =>
    by_cases hle : count ≤ earlier.length
    · rwa [List.take_append_of_le_length hle]
    · rw [List.take_of_length_le (by simp; omega)]
      exact ⟨_, hplaced.place hplace⟩

/-- Statements that were placed never close more blocks than they opened. -/
theorem Placed.covered (h : Placed statements layout) :
    Bracket.Covered 0 (statements.map Statement.bracket) := by
  intro count
  obtain ⟨before, hbefore⟩ := h.take count
  have hcount := hbefore.count_opens
  rw [← List.map_take]
  omega

section Faults

variable {operands : List Operand} {fault : LinkFault}

theorem placeVariable_fault {kind : Kind} (h : layout.placeVariable kind operands = .error fault) :
    fault.isUnmatched = false := by
  unfold placeVariable at h
  split at h
  · split at h <;> cases h
    rfl
  · cases h
    rfl

theorem placeFunction_fault (h : layout.placeFunction operands = .error fault) :
    fault.isUnmatched = false := by
  unfold placeFunction at h
  split at h
  · cases h
    rfl
  · split at h <;> cases h
    rfl

theorem placeCall_fault (h : layout.placeCall operands = .error fault) :
    fault.isUnmatched = false := by
  unfold placeCall at h
  split at h
  · cases h
    rfl
  · split at h
    · cases h
      rfl
    · split at h <;> cases h
      rfl

theorem placeEnd_fault (h : layout.placeEnd = .error fault) :
    layout.blocks = [] ∧ fault = .unmatchedBlock "end" := by
  unfold placeEnd at h
  split at h
  · rename_i hblocks
    cases h
    exact ⟨hblocks, rfl⟩
  · cases h

/-- Only an `end` where no block is open is refused for want of a partner. -/
theorem interpret_unmatched {keyword : String}
    (h : layout.interpret keyword operands = .error fault) (hfault : fault.isUnmatched = true) :
    keyword = "end" ∧ layout.blocks = [] ∧ fault = .unmatchedBlock "end" := by
  have hno : fault.isUnmatched ≠ false := by simp [hfault]
  unfold interpret at h
  split at h
  · exact ⟨rfl, placeEnd_fault h⟩
  · cases h
  · cases h
  · exact absurd (placeVariable_fault h) hno
  · exact absurd (placeVariable_fault h) hno
  · exact absurd (placeFunction_fault h) hno
  · exact absurd (placeCall_fault h) hno
  · cases h
  · cases h
  · split at h <;> cases h
    cases hfault

end Faults

theorem interpret_of_place {statement : Statement} {error : LinkError}
    (h : layout.place statement = .error error) :
    layout.interpret statement.keyword (Operand.classify statement.operands) =
      .error error.fault ∧ error.location = statement.location := by
  unfold place at h
  dsimp only at h
  split at h
  · rename_i fault hfault
    cases h
    exact ⟨hfault, rfl⟩
  · cases h

/-- The first pass refuses the statement at a position. -/
def StopsPlacing (statements : List Statement) (position : Nat) (error : LinkError) : Prop :=
  ∃ layout statement, ofStatements (statements.take position) = .ok layout ∧
    statements[position]? = some statement ∧ layout.place statement = .error error

theorem exists_stopsPlacing {error : LinkError} (h : ofStatements statements = .error error) :
    ∃ position, StopsPlacing statements position error := by
  obtain ⟨before, statement, rest, layout, rfl, hbefore, hplace⟩ := Chain.exists_split_of_foldlM h
  refine ⟨before.length, layout, statement, ?_, ?_, hplace⟩
  · rwa [List.take_left]
  · simp

theorem StopsPlacing.link_eq {position : Nat} {error : LinkError}
    (h : StopsPlacing statements position error) : link statements = .error error := by
  obtain ⟨layout, statement, hbefore, hstatement, hplace⟩ := h
  have hall : ofStatements statements = .error error := by
    rw [← List.take_append_drop position statements, ofStatements, List.foldlM_append]
    refine Chain.bind_eq_error_iff.2 (.inr ⟨layout, hbefore, ?_⟩)
    rw [List.drop_eq_getElem?_toList_append, hstatement]
    rw [Option.toList_some, List.singleton_append, List.foldlM_cons]
    exact Chain.bind_eq_error_iff.2 (.inl hplace)
  exact Chain.bind_eq_error_iff.2 (.inl hall)

/-- Where the first pass stops for want of a partner, an `end` closes too much, and conversely. -/
theorem StopsPlacing.isUnmatched_iff {position : Nat} {error : LinkError}
    (h : StopsPlacing statements position error) :
    error.fault.isUnmatched = true ↔
      Bracket.FirstSurplus (statements.map Statement.bracket) position := by
  obtain ⟨layout, statement, hbefore, hstatement, hplace⟩ := h
  have hplaced := placed_of_ofStatements hbefore
  have hcount := hplaced.count_opens
  obtain ⟨hinterpret, -⟩ := interpret_of_place hplace
  have hbracket : (statements.map Statement.bracket)[position]? = some statement.bracket := by
    rw [List.getElem?_map, hstatement, Option.map_some]
  rw [List.map_take] at hcount
  unfold Bracket.FirstSurplus
  rw [List.take_add_one, hbracket, Option.toList_some, List.count_append, List.count_append,
    hcount]
  constructor
  · intro hunmatched
    obtain ⟨hkeyword, hblocks, -⟩ := interpret_unmatched hinterpret hunmatched
    have hcloses : statement.bracket = .closes := by
      rw [Statement.bracket, hkeyword]
      rfl
    refine ⟨by rw [hcloses], by simp [hcloses, hblocks], ?_⟩
    rw [← List.map_take]
    exact hplaced.covered
  · rintro ⟨hcloses, hsurplus, -⟩
    have hcloses : statement.bracket = .closes := Option.some.inj hcloses
    have hkeyword := Bracket.eq_end_of_ofKeyword hcloses
    rw [hcloses] at hsurplus
    have hblocks : layout.blocks = [] := by simpa using hsurplus
    rw [hkeyword] at hinterpret
    change layout.placeEnd = _ at hinterpret
    rw [placeEnd, hblocks] at hinterpret
    rw [← Except.error.inj hinterpret]
    rfl

/-! ## The second pass -/

theorem past_fault {keyword : String} {fault : LinkFault}
    (h : layout.past id keyword = .error fault) :
    Bracket.closing? layout.brackets id = none ∧ fault = .unmatchedBlock keyword := by
  unfold past at h
  split at h
  · cases h
  · rename_i hnone
    cases h
    exact ⟨hnone, rfl⟩

theorem past_eq_error {keyword : String} (h : Bracket.closing? layout.brackets id = none) :
    layout.past id keyword = .error (.unmatchedBlock keyword) := by
  rw [past, h]

theorem closedBlock_fault {keyword : String} {fault : LinkFault}
    (h : layout.closedBlock id keyword = .error fault) :
    Bracket.opening? layout.brackets id = none ∧ fault = .unmatchedBlock keyword := by
  unfold closedBlock at h
  split at h
  · rename_i hnone
    cases h
    exact ⟨hnone, rfl⟩
  · split at h <;> cases h

theorem compile_fault {operands : List Operand} {fault : LinkFault}
    (h : compile operands = .error fault) : fault.isUnmatched = false := by
  unfold compile at h
  cases hcompile : Formula.compile operands with
  | error error =>
    rw [hcompile] at h
    cases h
    rfl
  | ok formula =>
    rw [hcompile] at h
    cases h

theorem resolveAssignment_fault {target : String} {kind : Kind} {operands : List Operand}
    {fault : LinkFault} (h : resolveAssignment target kind operands = .error fault) :
    fault.isUnmatched = false := by
  unfold resolveAssignment at h
  split at h
  · split at h
    · cases h
      rfl
    · cases kind with
      | number =>
        rcases Chain.bind_eq_error_iff.1 h with hcompile | ⟨formula, -, hresult⟩
        · exact compile_fault hcompile
        · cases hresult
      | text => cases h
  · cases h
    rfl

/-- A header is looked up before its formula is compiled. -/
theorem header_fault {keyword : String} {operands : List Operand} {fault : LinkFault}
    {action : Option NodeId → Formula → Action}
    (h : (do return action (← layout.past id keyword) (← compile operands)) =
      Except.error (α := Action) fault)
    (hfault : fault.isUnmatched = true) :
    Bracket.closing? layout.brackets id = none ∧ fault = .unmatchedBlock keyword := by
  rcases Chain.bind_eq_error_iff.1 h with hpast | ⟨target, -, hrest⟩
  · exact past_fault hpast
  · rcases Chain.bind_eq_error_iff.1 hrest with hcompile | ⟨formula, -, hresult⟩
    · rw [compile_fault hcompile] at hfault
      cases hfault
    · cases hresult

/-- The second pass finds no partner exactly where the scan for it fails. -/
theorem resolve_unmatched {fault : LinkFault} (h : layout.resolve id draft = .error fault)
    (hfault : fault.isUnmatched = true) :
    fault = .unmatchedBlock draft.location.keyword ∧
      (draft.form.bracket = .opens ∧ Bracket.closing? layout.brackets id = none ∨
        draft.form.bracket = .closes ∧ Bracket.opening? layout.brackets id = none) := by
  unfold resolve at h
  dsimp only at h
  split at h
  · cases h
  · cases h
  · cases h
  · rename_i hform
    obtain ⟨hnone, hsame⟩ := header_fault h hfault
    exact ⟨hsame, .inl ⟨by rw [hform]; rfl, hnone⟩⟩
  · rename_i hform
    obtain ⟨hnone, hsame⟩ := header_fault h hfault
    exact ⟨hsame, .inl ⟨by rw [hform]; rfl, hnone⟩⟩
  · rename_i hform
    rcases Chain.bind_eq_error_iff.1 h with hpast | ⟨target, -, hresult⟩
    · obtain ⟨hnone, hsame⟩ := past_fault hpast
      exact ⟨hsame, .inl ⟨by rw [hform]; rfl, hnone⟩⟩
    · cases hresult
  · cases h
  · rename_i hform
    rcases Chain.bind_eq_error_iff.1 h with hclosed | ⟨kind, -, hresult⟩
    · obtain ⟨hnone, hsame⟩ := closedBlock_fault hclosed
      exact ⟨hsame, .inr ⟨by rw [hform]; rfl, hnone⟩⟩
    · cases hresult
  · rw [resolveAssignment_fault h] at hfault
    cases hfault

/-- A header whose block is never closed is refused. -/
theorem resolve_of_unclosed (hopens : draft.form.bracket = .opens)
    (hnone : Bracket.closing? layout.brackets id = none) :
    layout.resolve id draft = .error (.unmatchedBlock draft.location.keyword) := by
  unfold resolve
  dsimp only
  rw [past_eq_error hnone]
  cases hform : draft.form with
  | loop | branch | function => rfl
  | declare | output | input | call | close | assign =>
    rw [hform] at hopens
    cases hopens

theorem resolve_of_resolveNode {error : LinkError}
    (h : layout.resolveNode draft id = .error error) :
    layout.resolve id draft = .error error.fault ∧ error.location = draft.location := by
  unfold resolveNode at h
  split at h
  · cases h
  · rename_i fault hfault
    cases h
    exact ⟨hfault, rfl⟩

/-- The second pass accepts the drafts before a position, and refuses the one that stands there. -/
def StopsResolving (layout : Layout) (position : Nat) (error : LinkError) : Prop :=
  (∃ draft, layout.drafts[position]? = some draft ∧
    layout.resolveNode draft position = .error error) ∧
  ∀ earlier < position, ∀ draft, layout.drafts[earlier]? = some draft →
    ∃ node, layout.resolveNode draft earlier = .ok node

/-- The drafts with their positions. -/
theorem getElem?_zipIdx_drafts (layout : Layout) (position : Nat) :
    layout.drafts.toList.zipIdx[position]? =
      (layout.drafts[position]?).map fun draft ↦ (draft, position) := by
  rw [List.getElem?_zipIdx, Array.getElem?_toList, Nat.zero_add]

theorem exists_stopsResolving {error : LinkError} (h : layout.finish = .error error) :
    ∃ position, StopsResolving layout position error := by
  rcases Chain.bind_eq_error_iff.1 h with hnodes | ⟨nodes, -, hresult⟩
  · obtain ⟨before, ⟨draft, id⟩, after, hsplit, hbefore, hresolve⟩ :=
      Chain.exists_split_of_mapM hnodes
    have hat := layout.getElem?_zipIdx_drafts
    rw [hsplit] at hat
    have hlast := hat before.length
    rw [List.getElem?_append_right (Nat.le_refl _), Nat.sub_self, List.getElem?_cons_zero] at hlast
    obtain ⟨found, hfound, hsame⟩ := Option.map_eq_some_iff.1 hlast.symm
    obtain ⟨rfl, rfl⟩ := Prod.mk.inj hsame
    refine ⟨before.length, ⟨found, hfound, hresolve⟩, fun earlier hlt draft hdraft ↦ ?_⟩
    have hearlier := hat earlier
    rw [List.getElem?_append_left hlt, hdraft, Option.map_some] at hearlier
    exact hbefore _ (List.mem_of_getElem? hearlier)
  · cases hresult

theorem StopsResolving.finish_eq {position : Nat} {error : LinkError}
    (h : StopsResolving layout position error) : layout.finish = .error error := by
  obtain ⟨⟨draft, hdraft, hresolve⟩, haccepted⟩ := h
  have hat := layout.getElem?_zipIdx_drafts position
  rw [hdraft, Option.map_some] at hat
  refine Chain.bind_eq_error_iff.2 (.inl ?_)
  rw [← List.take_append_drop position layout.drafts.toList.zipIdx,
    List.drop_eq_getElem?_toList_append, hat]
  refine Chain.mapM_eq_error (fun numbered hmem ↦ ?_) hresolve
  obtain ⟨earlier, hearlier⟩ := List.mem_iff_getElem?.1 hmem
  rw [List.getElem?_take] at hearlier
  split at hearlier
  · rename_i hlt
    rw [getElem?_zipIdx_drafts] at hearlier
    obtain ⟨found, hfound, rfl⟩ := Option.map_eq_some_iff.1 hearlier
    exact haccepted earlier hlt found hfound
  · cases hearlier

theorem Placed.getElem?_brackets (h : Placed statements layout)
    (hdraft : layout.drafts[id]? = some draft) :
    (statements.map Statement.bracket)[id]? = some draft.form.bracket := by
  rw [← h.brackets_eq, brackets, List.getElem?_map, Array.getElem?_toList, hdraft, Option.map_some]

/-- Once the first pass accepted all statements, every `end` finds its header. -/
theorem Placed.isSome_opening? (h : Placed statements layout)
    (hdraft : layout.drafts[id]? = some draft) (hcloses : draft.form.bracket = .closes) :
    (Bracket.opening? layout.brackets id).isSome := by
  have hbracket := h.getElem?_brackets hdraft
  rw [hcloses] at hbracket
  have hcount := h.covered (id + 1)
  rw [Nat.zero_add] at hcount
  rw [h.brackets_eq]
  exact Bracket.isSome_opening? hbracket hcount

/-- So only headers whose blocks are never closed are refused for want of a partner. -/
theorem Placed.unclosed_of_resolveNode (h : Placed statements layout)
    (hdraft : layout.drafts[id]? = some draft) {error : LinkError}
    (hresolve : layout.resolveNode draft id = .error error)
    (hunmatched : error.fault.isUnmatched = true) :
    (statements.map Statement.bracket)[id]? = some .opens ∧
      ∀ close, ¬ Bracket.Pair (statements.map Statement.bracket) id close := by
  obtain ⟨hfault, -⟩ := resolve_of_resolveNode hresolve
  rcases (resolve_unmatched hfault hunmatched).2 with ⟨hopens, hnone⟩ | ⟨hcloses, hnone⟩
  · refine ⟨by rw [h.getElem?_brackets hdraft, hopens], fun close hpair ↦ ?_⟩
    rw [h.brackets_eq, hpair.closing?_eq] at hnone
    cases hnone
  · have hsome := h.isSome_opening? hdraft hcloses
    rw [hnone] at hsome
    cases hsome

/-- Where the second pass stops in a program with an open block, it is at the first such block or
at another fault before it. -/
theorem StopsResolving.at_firstUnclosed (hplaced : Placed statements layout) {position : Nat}
    {error : LinkError} (hstops : StopsResolving layout position error) {header : Nat}
    (hfirst : Bracket.FirstUnclosed (statements.map Statement.bracket) header)
    {statement : Statement} (hstatement : statements[header]? = some statement) :
    error = ⟨statement.location, .unmatchedBlock statement.keyword⟩ ∨
      error.fault.isUnmatched = false ∧ position < header := by
  obtain ⟨hopens, hunclosed, hclosed⟩ := hfirst
  obtain ⟨⟨draft, hdraft, hresolve⟩, haccepted⟩ := hstops
  obtain ⟨before, after, form, -, hplacement, hheader⟩ := hplaced.exists_draft hstatement
  have hnone : Bracket.closing? layout.brackets header = none := by
    rw [hplaced.brackets_eq]
    by_contra hsome
    obtain ⟨close, hclose⟩ := Option.ne_none_iff_exists'.1 hsome
    exact hunclosed close (Bracket.pair_of_closing? hopens hclose)
  have hform : form.bracket = .opens := by
    have hbracket := hplaced.getElem?_brackets hheader
    rw [hopens] at hbracket
    exact (Option.some.inj hbracket).symm
  have hrefused : layout.resolve header
      ⟨statement.location, Operand.classify statement.operands, before.scope, form⟩ =
      .error (.unmatchedBlock statement.keyword) := resolve_of_unclosed hform hnone
  rcases Nat.lt_trichotomy position header with hlt | rfl | hgt
  · right
    refine ⟨?_, hlt⟩
    by_contra hunmatched
    rw [Bool.not_eq_false] at hunmatched
    obtain ⟨hearlier, hopen⟩ := hplaced.unclosed_of_resolveNode hdraft hresolve hunmatched
    obtain ⟨close, hpair⟩ := hclosed position hlt hearlier
    exact hopen close hpair
  · left
    rw [hheader] at hdraft
    cases hdraft
    obtain ⟨hfault, hlocation⟩ := resolve_of_resolveNode hresolve
    rw [hrefused] at hfault
    obtain ⟨location, fault⟩ := error
    cases hlocation
    cases hfault
    rfl
  · obtain ⟨node, hnode⟩ := haccepted header hgt _ hheader
    rw [resolveNode, hrefused] at hnode
    cases hnode

/-- Where the first pass stops in a program that closes too much, it is where that happens first or
at another fault before it. -/
theorem StopsPlacing.at_firstSurplus {position : Nat} {error : LinkError}
    (hstops : StopsPlacing statements position error) {close : Nat}
    (hfirst : Bracket.FirstSurplus (statements.map Statement.bracket) close)
    {statement : Statement} (hstatement : statements[close]? = some statement) :
    error = ⟨statement.location, .unmatchedBlock statement.keyword⟩ ∨
      error.fault.isUnmatched = false ∧ position < close := by
  have hiff := hstops.isUnmatched_iff
  obtain ⟨layout, refused, hbefore, hrefused, hplace⟩ := hstops
  obtain ⟨hinterpret, hlocation⟩ := interpret_of_place hplace
  have hle : position ≤ close := by
    by_contra hgt
    have hcovered := (placed_of_ofStatements hbefore).covered (close + 1)
    have hsurplus := hfirst.2.1
    rw [List.map_take, List.take_take, Nat.min_eq_left (by omega)] at hcovered
    omega
  rcases Nat.lt_or_eq_of_le hle with hlt | rfl
  · by_cases hunmatched : error.fault.isUnmatched = true
    · have hcount := hfirst.2.2 (position + 1)
      have hsurplus := (hiff.1 hunmatched).2.1
      rw [List.take_take, Nat.min_eq_left (by omega)] at hcount
      omega
    · exact .inr ⟨by simpa using hunmatched, hlt⟩
  · left
    rw [hstatement] at hrefused
    cases hrefused
    obtain ⟨hkeyword, -, hfault⟩ := interpret_unmatched hinterpret (hiff.2 hfirst)
    rw [← hlocation, hkeyword, ← hfault]

end Layout

/-! ## Linking -/

open Layout

/-- Linking stops in one of the two passes. -/
theorem stops_of_link {statements : List Statement} {error : LinkError}
    (h : link statements = .error error) :
    (∃ position, StopsPlacing statements position error) ∨
      ∃ layout, ofStatements statements = .ok layout ∧
        ∃ position, StopsResolving layout position error := by
  rcases Chain.bind_eq_error_iff.1 h with hfirst | ⟨layout, hlayout, hsecond⟩
  · exact .inl (exists_stopsPlacing hfirst)
  · exact .inr ⟨layout, hlayout, exists_stopsResolving hsecond⟩

/-- Linking refuses the statement at a position, in one pass or the other. -/
def StopsAt (statements : List Statement) (position : Nat) (error : LinkError) : Prop :=
  StopsPlacing statements position error ∨
    ∃ layout, ofStatements statements = .ok layout ∧ StopsResolving layout position error

theorem exists_stopsAt_of_link {statements : List Statement} {error : LinkError}
    (h : link statements = .error error) : ∃ position, StopsAt statements position error := by
  rcases stops_of_link h with ⟨position, hstops⟩ | ⟨layout, hlayout, position, hstops⟩
  · exact ⟨position, .inl hstops⟩
  · exact ⟨position, .inr ⟨layout, hlayout, hstops⟩⟩

theorem StopsAt.link_eq {statements : List Statement} {position : Nat} {error : LinkError}
    (h : StopsAt statements position error) : link statements = .error error := by
  rcases h with hplacing | ⟨layout, hlayout, hresolving⟩
  · exact hplacing.link_eq
  · exact Chain.bind_eq_error_iff.2 (.inr ⟨layout, hlayout, hresolving.finish_eq⟩)

/--
A program that links is balanced, and a balanced one is never refused for want of a partner; after
the first pass every `end` has its header anyway. A program that is not balanced is refused. It is
refused for want of a partner, at the first `end` that closes too much or else at the first header
whose block is never closed, unless there is another fault before: for the `end` in a line before
it, for the header in any line that the first pass refuses or in a line before the header that the
second pass refuses.
-/
theorem unmatched_of_linkLines (lines : List (List Word)) :
    (∀ linked, linkLines lines = .ok linked → Bracket.Balanced (bracketsOfLines lines)) ∧
    (Bracket.Balanced (bracketsOfLines lines) → ∀ error, linkLines lines = .error error →
      error.fault.isUnmatched = false) ∧
    (∀ layout, ofStatements (statementsOfLines lines) = .ok layout → ∀ close draft,
      layout.drafts[close]? = some draft → draft.form = .close →
      ∃ block, layout.closedBlock close draft.location.keyword = .ok block) ∧
    (¬ Bracket.Balanced (bracketsOfLines lines) →
      ∃ error position statement, linkLines lines = .error error ∧
        (statementsOfLines lines)[position]? = some statement ∧
        (Bracket.FirstSurplus (bracketsOfLines lines) position ∧
            (error = ⟨statement.location, .unmatchedBlock statement.keyword⟩ ∨
              error.fault.isUnmatched = false ∧
                ∃ earlier < position, StopsPlacing (statementsOfLines lines) earlier error) ∨
          (∀ close, ¬ Bracket.FirstSurplus (bracketsOfLines lines) close) ∧
            Bracket.FirstUnclosed (bracketsOfLines lines) position ∧
            (error = ⟨statement.location, .unmatchedBlock statement.keyword⟩ ∨
              error.fault.isUnmatched = false ∧
                ((∃ line, StopsPlacing (statementsOfLines lines) line error) ∨
                  ∃ layout, ofStatements (statementsOfLines lines) = .ok layout ∧
                    ∃ earlier < position, StopsResolving layout earlier error)))) := by
  have hlinked : ∀ linked, linkLines lines = .ok linked →
      Bracket.Balanced (bracketsOfLines lines) := by
    intro linked hlink
    have hbalanced := balanced_of_link hlink
    rwa [brackets_of_link hlink] at hbalanced
  refine ⟨hlinked, ?_, ?_, ?_⟩
  · intro hbalanced error hlink
    by_contra hunmatched
    rw [Bool.not_eq_false] at hunmatched
    rcases stops_of_link hlink with ⟨position, hstops⟩ | ⟨layout, hlayout, position, hstops⟩
    · have hsurplus := hstops.isUnmatched_iff.1 hunmatched
      exact hsurplus.not_covered (Bracket.covered_of_balanced hbalanced)
    · obtain ⟨⟨draft, hdraft, hresolve⟩, -⟩ := hstops
      obtain ⟨hopens, hunclosed⟩ :=
        (placed_of_ofStatements hlayout).unclosed_of_resolveNode hdraft hresolve hunmatched
      obtain ⟨close, hpair⟩ := (hbalanced.exists_pair position).1 hopens
      exact hunclosed close hpair
  · intro layout hlayout close draft hdraft hform
    cases hclosed : layout.closedBlock close draft.location.keyword with
    | ok block => exact ⟨block, rfl⟩
    | error fault =>
      have hsome := (placed_of_ofStatements hlayout).isSome_opening? hdraft (by rw [hform]; rfl)
      rw [(closedBlock_fault hclosed).1] at hsome
      cases hsome
  · intro hunbalanced
    obtain ⟨error, hlink⟩ : ∃ error, linkLines lines = .error error := by
      cases hlink : linkLines lines with
      | error error => exact ⟨error, rfl⟩
      | ok linked => exact absurd (hlinked linked hlink) hunbalanced
    have hstatement : ∀ {position : Nat} {bracket : Bracket},
        (bracketsOfLines lines)[position]? = some bracket →
        ∃ statement, (statementsOfLines lines)[position]? = some statement := by
      intro position bracket hbracket
      rw [bracketsOfLines, List.getElem?_map] at hbracket
      obtain ⟨statement, hfound, -⟩ := Option.map_eq_some_iff.1 hbracket
      exact ⟨statement, hfound⟩
    rcases Bracket.exists_firstSurplus_or_firstUnclosed hunbalanced with
      ⟨close, hfirst⟩ | ⟨hcovered, header, hfirst⟩
    · obtain ⟨statement, hfound⟩ := hstatement hfirst.1
      refine ⟨error, close, statement, hlink, hfound, .inl ⟨hfirst, ?_⟩⟩
      rcases stops_of_link hlink with ⟨position, hstops⟩ | ⟨layout, hlayout, -⟩
      · exact (hstops.at_firstSurplus hfirst hfound).imp_right
          fun ⟨hother, hlt⟩ ↦ ⟨hother, position, hlt, hstops⟩
      · exact absurd (placed_of_ofStatements hlayout).covered hfirst.not_covered
    · obtain ⟨statement, hfound⟩ := hstatement hfirst.1
      refine ⟨error, header, statement, hlink, hfound,
        .inr ⟨fun close hsurplus ↦ hsurplus.not_covered hcovered, hfirst, ?_⟩⟩
      rcases stops_of_link hlink with ⟨position, hstops⟩ | ⟨layout, hlayout, position, hstops⟩
      · right
        refine ⟨?_, .inl ⟨position, hstops⟩⟩
        by_contra hunmatched
        rw [Bool.not_eq_false] at hunmatched
        exact (hstops.isUnmatched_iff.1 hunmatched).not_covered hcovered
      · exact (hstops.at_firstUnclosed (placed_of_ofStatements hlayout) hfirst hfound).imp_right
          fun ⟨hother, hlt⟩ ↦ ⟨hother, .inr ⟨layout, hlayout, position, hlt, hstops⟩⟩

end LineScript
