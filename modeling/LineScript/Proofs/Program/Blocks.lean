import LineScript.Program.Line
import LineScript.Proofs.Bracket.Outline
import LineScript.Proofs.Program.Resolution

/-!
# Blocks of linked programs

The statements of a program that links are balanced. The two passes over them agree: a header and
the `end` that is its partner refer to each other, although the header was given its target by a
scan forwards and the `end` its role by a scan backwards. What a call knows of its function is what
the header of the function says.
-/

namespace LineScript

namespace Program

/-- A position holds a statement with some keyword, which does what an action says. -/
def Holds (program : Program) (id : NodeId) (keyword : String) (action : Action) : Prop :=
  ∃ node, program.node? id = some node ∧ node.location.keyword = keyword ∧ node.action = action

/-- A header and an `end` that refer to each other. -/
inductive Block (program : Program) (header close : NodeId) : Prop where
  | loop {condition : Formula} :
      program.Holds header "while" (.loop (program.next? close) condition) →
      program.Holds close "end" (.close (.loop header)) → Block program header close
  | branch {condition : Formula} :
      program.Holds header "if" (.branch (program.next? close) condition) →
      program.Holds close "end" (.close .branch) → Block program header close
  | function {signature : Signature} :
      program.Holds header "function" (.function (program.next? close) signature) →
      program.Holds close "end" (.close .function) → Block program header close

theorem Holds.action_eq {program : Program} {id : NodeId} {keyword : String} {action : Action}
    (h : program.Holds id keyword action) {node : Node} (hnode : program.node? id = some node) :
    node.action = action := by
  obtain ⟨found, hfound, -, haction⟩ := h
  rw [hnode] at hfound
  rw [Option.some.inj hfound, haction]

theorem lt_size_of_next? {program : Program} {id position : Nat}
    (h : program.next? id = some position) : position < program.size := by
  unfold next? at h
  split at h
  · cases h
    assumption
  · cases h

theorem lt_size_of_node? {program : Program} {id : NodeId} {node : Node}
    (h : program.node? id = some node) : id < program.size := by
  obtain ⟨hlt, -⟩ := Array.getElem?_eq_some_iff.1 h
  exact hlt

theorem next?_eq_some {program : Program} {id : Nat} (h : id + 1 < program.size) :
    program.next? id = some (id + 1) :=
  if_pos h

theorem next?_eq_none {program : Program} {id : Nat} (h : program.size ≤ id + 1) :
    program.next? id = none :=
  if_neg (Nat.not_lt.2 h)

end Program

def nonEmptyLines (lines : List (List Word)) : List (List Word) :=
  lines.filter fun line ↦ !line.isEmpty

theorem length_statementsOfLines (lines : List (List Word)) :
    (statementsOfLines lines).length = (nonEmptyLines lines).length := by
  induction lines with
  | nil => rfl
  | cons line rest ih =>
    cases line with
    | nil => exact ih
    | cons keyword operands => exact congrArg (· + 1) ih

theorem getElem?_statementsOfLines {lines : List (List Word)} {id : Nat} {keyword : Word}
    {operands : List Word} (h : (nonEmptyLines lines)[id]? = some (keyword :: operands)) :
    (statementsOfLines lines)[id]? =
      some ⟨keyword.file, keyword.line, keyword.text, operands.map fun word ↦ word.text⟩ := by
  induction lines generalizing id with
  | nil => exact absurd h (by simp [nonEmptyLines])
  | cons line rest ih =>
    cases line with
    | nil => exact ih h
    | cons first others =>
      cases id with
      | zero =>
        cases h
        rfl
      | succ id => exact ih h

variable {statements : List Statement} {linked : Linked}

theorem size_of_link (h : link statements = .ok linked) :
    linked.program.size = statements.length := by
  obtain ⟨layout, hplaced, hresolved⟩ := exists_layout_of_link h
  calc
    linked.program.size = layout.drafts.size := hresolved.size_eq
    _ = statements.length := hplaced.size_drafts

/-- The node of each statement stands at its position. -/
theorem node_of_statement (h : link statements = .ok linked) {id : Nat} {statement : Statement}
    (hstatement : statements[id]? = some statement) :
    ∃ node, linked.program.node? id = some node ∧ node.location = statement.location ∧
      node.operands = Operand.classify statement.operands ∧
      node.action.bracket = statement.bracket := by
  obtain ⟨layout, hplaced, hresolved⟩ := exists_layout_of_link h
  obtain ⟨before, after, form, -, hplacement, hdraft⟩ := hplaced.exists_draft hstatement
  obtain ⟨action, hnode, hresolution⟩ := hresolved.exists_node id _ hdraft
  exact ⟨_, hnode, rfl, rfl, hresolution.bracket_eq.trans hplacement.bracket_eq⟩

/-- The brackets of a program are those of its keywords. -/
theorem brackets_of_link (h : link statements = .ok linked) :
    linked.program.brackets = statements.map Statement.bracket := by
  apply List.ext_getElem?
  intro id
  rw [Program.brackets, List.getElem?_map, List.getElem?_map, Array.getElem?_toList]
  cases hstatement : statements[id]? with
  | none =>
    have hsize := List.getElem?_eq_none_iff.1 hstatement
    rw [← size_of_link h] at hsize
    rw [Array.getElem?_eq_none_iff.2 hsize]
    rfl
  | some statement =>
    obtain ⟨node, hnode, -, -, hbracket⟩ := node_of_statement h hstatement
    rw [Program.node?] at hnode
    rw [hnode, Option.map_some, Option.map_some, hbracket]

theorem bracket_of_node {program : Program} {id : Nat} {node : Node}
    (hnode : program.node? id = some node) : program.brackets[id]? = some node.action.bracket := by
  rw [Program.node?] at hnode
  rw [Program.brackets, List.getElem?_map, Array.getElem?_toList, hnode, Option.map_some]

theorem exists_node_of_bracket {program : Program} {id : NodeId} {bracket : Bracket}
    (h : program.brackets[id]? = some bracket) :
    ∃ node, program.node? id = some node ∧ node.action.bracket = bracket := by
  rw [Program.brackets, List.getElem?_map, Array.getElem?_toList] at h
  exact Option.map_eq_some_iff.1 h

/-- The keyword of a header says which kind of block it opens, and `end` closes them all. -/
theorem keyword_of_bracket {layout after : Layout} {keyword : String} {operands : List Operand}
    {form : Form} (h : layout.Placement keyword operands after form) :
    (form.bracket = .closes → form = .close ∧ keyword = "end") ∧
      (form.bracket = .opens →
        (form = .loop ∧ keyword = "while") ∨ (form = .branch ∧ keyword = "if") ∨
          ∃ signature, form = .function signature ∧ keyword = "function") := by
  cases h with
  | loop hkeyword => simp [Form.bracket, hkeyword]
  | branch hkeyword => simp [Form.bracket, hkeyword]
  | function hkeyword => simp [Form.bracket, hkeyword]
  | close hkeyword => simp [Form.bracket, hkeyword]
  | declare | output | input | call | assign => simp [Form.bracket]

/-- Both scans succeed on the statements of a program that links. -/
theorem scans_of_link (h : link statements = .ok linked) (id : Nat) :
    (linked.program.brackets[id]? = some .opens →
        (Bracket.closing? linked.program.brackets id).isSome) ∧
      (linked.program.brackets[id]? = some .closes →
        (Bracket.opening? linked.program.brackets id).isSome) := by
  obtain ⟨layout, hplaced, hresolved⟩ := exists_layout_of_link h
  have hbrackets := hresolved.brackets_eq
  constructor
  · intro hopens
    obtain ⟨node, hnode, hbracket⟩ := exists_node_of_bracket hopens
    obtain ⟨form, -, hresolution⟩ := hresolved.exists_draft hnode
    rw [hbrackets]
    generalize node.action = action at hbracket hresolution
    cases hresolution with
    | loop _ hclose | branch _ hclose | function _ hclose => rw [hclose]; rfl
    | declare | output | input | call | close | number | text => cases hbracket
  · intro hcloses
    obtain ⟨node, hnode, hbracket⟩ := exists_node_of_bracket hcloses
    obtain ⟨form, -, hresolution⟩ := hresolved.exists_draft hnode
    rw [hbrackets]
    generalize node.action = action at hbracket hresolution
    cases hresolution with
    | close _ hheader => rw [hheader]; rfl
    | declare | output | input | loop | branch | function | call | number | text => cases hbracket

/-- A program that links has an outline. -/
theorem exists_outline_of_link (h : link statements = .ok linked) :
    ∃ outline, Outline.ofBrackets linked.program.brackets = some outline :=
  Outline.exists_ofBrackets (fun header ↦ (scans_of_link h header).1)
    fun close ↦ (scans_of_link h close).2

theorem balanced_of_link (h : link statements = .ok linked) :
    Bracket.Balanced linked.program.brackets := by
  obtain ⟨outline, houtline⟩ := exists_outline_of_link h
  rw [← Outline.word_of_ofBrackets houtline]
  exact outline.balanced_word

/-- How the node at a position was placed, and how it was resolved. -/
theorem exists_form_of_node {layout : Layout} (hplaced : layout.Placed statements)
    (hresolved : layout.Resolved linked) {id : Nat} {node : Node}
    (hnode : linked.program.node? id = some node) :
    ∃ before after form,
      Layout.Placement before node.location.keyword node.operands after form ∧
        layout.formAt? id = some form ∧
        layout.Resolution id ⟨node.location, node.operands, node.scope, form⟩ node.action := by
  obtain ⟨form, hdraft, hresolution⟩ := hresolved.exists_draft hnode
  obtain ⟨before, after, -, hplacement, -⟩ := hplaced.placement_of_draft hdraft
  refine ⟨before, after, form, hplacement, ?_, hresolution⟩
  rw [Layout.formAt?, hdraft, Option.map_some]

/-- Partners refer to each other. -/
theorem block_of_pair (h : link statements = .ok linked) {header close : Nat}
    (hpair : Bracket.Pair linked.program.brackets header close) :
    linked.program.Block header close := by
  obtain ⟨layout, hplaced, hresolved⟩ := exists_layout_of_link h
  have hforward := hpair.closing?_eq
  have hbackward := hpair.opening?_eq
  rw [hresolved.brackets_eq] at hforward hbackward
  obtain ⟨opener, hopener, hopener'⟩ := exists_node_of_bracket hpair.opens
  obtain ⟨closer, hcloser, hcloser'⟩ := exists_node_of_bracket hpair.closes
  -- What the `end` says about its header depends on the form of the header alone.
  obtain ⟨_, _, formClose, hplaceClose, -, hresolveClose⟩ :=
    exists_form_of_node hplaced hresolved hcloser
  have hclose : closer.location.keyword = "end" ∧
      closer.action = .close (layout.blockKind header) := by
    rw [hresolveClose.bracket_eq] at hcloser'
    obtain ⟨rfl, hkeyword⟩ := (keyword_of_bracket hplaceClose).1 hcloser'
    obtain ⟨found, hfound, haction⟩ := hresolveClose.action_of_form
    rw [hbackward] at hfound
    rw [Option.some.inj hfound]
    exact ⟨hkeyword, haction⟩
  obtain ⟨_, _, formOpen, hplaceOpen, hformAt, hresolveOpen⟩ :=
    exists_form_of_node hplaced hresolved hopener
  rw [hresolveOpen.bracket_eq] at hopener'
  rw [Layout.blockKind, hformAt] at hclose
  have hend : ∀ kind, closer.action = .close kind →
      linked.program.Holds close "end" (.close kind) :=
    fun kind hkind ↦ ⟨closer, hcloser, hclose.1, hkind⟩
  have hnext : ∀ past, opener.action.past? = some past → past = linked.program.next? close :=
    fun past hpast ↦ (hresolveOpen.past_eq hpast hforward).trans (hresolved.next?_eq close)
  rcases (keyword_of_bracket hplaceOpen).2 hopener' with
    ⟨rfl, hkeyword⟩ | ⟨rfl, hkeyword⟩ | ⟨signature, rfl, hkeyword⟩
  · obtain ⟨past, condition, haction⟩ := hresolveOpen.action_of_form
    have hpast := hnext past (congrArg Action.past? haction)
    exact .loop ⟨opener, hopener, hkeyword, hpast ▸ haction⟩ (hend _ hclose.2)
  · obtain ⟨past, condition, haction⟩ := hresolveOpen.action_of_form
    have hpast := hnext past (congrArg Action.past? haction)
    exact .branch ⟨opener, hopener, hkeyword, hpast ▸ haction⟩ (hend _ hclose.2)
  · obtain ⟨past, haction⟩ := hresolveOpen.action_of_form
    have hpast := hnext past (congrArg Action.past? haction)
    exact .function ⟨opener, hopener, hkeyword, hpast ▸ haction⟩ (hend _ hclose.2)

/-- A header has a partner, and goes past it. -/
theorem exists_close_of_header (h : link statements = .ok linked) {id : Nat} {node : Node}
    (hnode : linked.program.node? id = some node) {past : Option NodeId}
    (hpast : node.action.past? = some past) :
    ∃ close, Bracket.Pair linked.program.brackets id close ∧ past = linked.program.next? close := by
  have hopens : linked.program.brackets[id]? = some .opens := by
    rw [bracket_of_node hnode]
    cases haction : node.action with
    | loop | branch | function => rfl
    | declare | output | input | call | close | assign =>
      rw [haction] at hpast
      cases hpast
  obtain ⟨close, hpair⟩ := ((balanced_of_link h).exists_pair id).1 hopens
  refine ⟨close, hpair, ?_⟩
  have hblock := block_of_pair h hpair
  cases hblock with
  | loop hheader | branch hheader | function hheader =>
    rw [hheader.action_eq hnode] at hpast
    exact (Option.some.inj hpast).symm

/-- An `end` has a partner, and they refer to each other. -/
theorem exists_header_of_close (h : link statements = .ok linked) {id : Nat} {node : Node}
    (hnode : linked.program.node? id = some node) {kind : BlockKind}
    (haction : node.action = .close kind) :
    ∃ header, Bracket.Pair linked.program.brackets header id ∧ linked.program.Block header id := by
  have hcloses : linked.program.brackets[id]? = some .closes := by
    rw [bracket_of_node hnode, haction]
    rfl
  obtain ⟨header, hpair⟩ := ((balanced_of_link h).exists_pair id).2 hcloses
  exact ⟨header, hpair, block_of_pair h hpair⟩

/-- The arguments of a call are for the parameters, in order. -/
theorem map_parameter_zipWith {parameters : List Parameter} {operands : List Operand}
    (hlength : parameters.length = operands.length) :
    (List.zipWith Argument.mk parameters operands).map Argument.parameter = parameters := by
  have hfirst := List.map_fst_zip (Nat.le_of_eq hlength)
  rw [List.zip, List.map_zipWith] at hfirst
  rw [List.map_zipWith]
  exact hfirst

/-- A call names the header of a function that stands before it, and has an operand for each of
its parameters. -/
theorem exists_header_of_call (h : link statements = .ok linked) {site : Nat} {node : Node}
    (hnode : linked.program.node? site = some node) {callee : NodeId} {function : String}
    {arguments : List Argument} (haction : node.action = .call callee function arguments) :
    callee < site ∧ ∃ header past signature operands,
      linked.program.node? callee = some header ∧ header.action = .function past signature ∧
      function = signature.name ∧ signature.parameters.length = operands.length ∧
      arguments = List.zipWith Argument.mk signature.parameters operands := by
  obtain ⟨layout, hplaced, hresolved⟩ := exists_layout_of_link h
  obtain ⟨form, hdraft, hresolution⟩ := hresolved.exists_draft hnode
  obtain ⟨hlt, headerDraft, signature, operands, hheader, hform, hrest⟩ :=
    hplaced.exists_callee hdraft (hresolution.form_of_call haction)
  obtain ⟨action, hfound, hresolve⟩ := hresolved.exists_node callee headerDraft hheader
  have hfunction := hresolve.action_of_form
  rw [hform] at hfunction
  obtain ⟨past, hfunction⟩ := hfunction
  exact ⟨hlt, _, past, signature, operands, hfound, hfunction, hrest⟩

/--
The nodes of a program are its lines with words, in order. Among their brackets every header has
exactly one partner and every `end` too; partners stand in order with balanced statements between
them and refer to each other, and two blocks are nested or disjoint.
-/
theorem blocks_of_linkLines {lines : List (List Word)} (h : linkLines lines = .ok linked) :
    linked.program.size = (nonEmptyLines lines).length ∧
    (∀ (id : Nat) (keyword : Word) (operands : List Word),
      (nonEmptyLines lines)[id]? = some (keyword :: operands) →
      ∃ node, linked.program.node? id = some node ∧
        node.location = ⟨keyword.file, keyword.line, keyword.text⟩ ∧
        node.operands = Operand.classify (operands.map fun word ↦ word.text) ∧
        node.action.bracket = .ofKeyword keyword.text) ∧
    (∀ id < linked.program.size,
      linked.program.next? id = (if id + 1 = linked.program.size then none else some (id + 1)) ∧
      Program.previous? id = (if id = 0 then none else some (id - 1))) ∧
    (∀ header, linked.program.brackets[header]? = some .opens →
      ∃! close, Bracket.Pair linked.program.brackets header close) ∧
    (∀ close, linked.program.brackets[close]? = some .closes →
      ∃! header, Bracket.Pair linked.program.brackets header close) ∧
    (∀ header close, Bracket.Pair linked.program.brackets header close →
      header < close ∧
      Bracket.Balanced
        ((linked.program.brackets.drop (header + 1)).take (close - (header + 1))) ∧
      linked.program.Block header close) ∧
    ∀ header close header' close', Bracket.Pair linked.program.brackets header close →
      Bracket.Pair linked.program.brackets header' close' → header < header' →
      close' < close ∨ close < header' := by
  have hbalanced := balanced_of_link h
  refine ⟨?_, ?_, ?_, ?_, ?_, ?_, ?_⟩
  · calc
      linked.program.size = (statementsOfLines lines).length := size_of_link h
      _ = (nonEmptyLines lines).length := length_statementsOfLines lines
  · intro id keyword operands hline
    exact node_of_statement h (getElem?_statementsOfLines hline)
  · intro id hid
    constructor
    · by_cases hlast : id + 1 = linked.program.size
      · rw [if_pos hlast, Program.next?_eq_none (by omega)]
      · rw [if_neg hlast, Program.next?_eq_some (by omega)]
    · cases id <;> rfl
  · intro header hopens
    obtain ⟨close, hpair⟩ := (hbalanced.exists_pair header).1 hopens
    exact ⟨close, hpair, fun other hother ↦ hother.close_unique hpair⟩
  · intro close hcloses
    obtain ⟨header, hpair⟩ := (hbalanced.exists_pair close).2 hcloses
    exact ⟨header, hpair, fun other hother ↦ hother.header_unique hpair⟩
  · intro header close hpair
    exact ⟨hpair.lt, hpair.balanced_between, block_of_pair h hpair⟩
  · intro header close header' close' hpair hpair' hlt
    exact hpair.nested_or_disjoint hpair' hlt

/-- A program with a loop in a function and a call in a branch, and a line without words. -/
def countdown : List (List Word) :=
  [["function", "shrink", "number", "n"], ["while", "n", ">", "0"], ["out", "n"],
    ["n", "=", "n", "-", "1"], ["end"], ["end"], [], ["number", "x"], ["x", "=", "2"],
    ["if", "x"], ["call", "shrink", "x"], ["end"]].zipIdx.map
    fun (words, line) ↦ words.map fun text ↦ ⟨text, "countdown", line + 1⟩

theorem exists_linked_countdown : ∃ linked, linkLines countdown = .ok linked :=
  Chain.exists_eq_ok (by decide +kernel)

theorem blocks_countdown : ∃ linked, linkLines countdown = .ok linked ∧
    linked.program.size = 11 ∧ linked.program.Block 1 4 ∧ linked.program.Block 0 5 := by
  obtain ⟨linked, hlinked⟩ := exists_linked_countdown
  obtain ⟨hsize, -, -, hopens, -, hpairs, -⟩ := blocks_of_linkLines hlinked
  have hbrackets := brackets_of_link hlinked
  have hpartner : ∀ header close, linked.program.brackets[header]? = some .opens →
      Bracket.closing? linked.program.brackets header = some close →
      linked.program.Block header close := by
    intro header close hheader hclose
    obtain ⟨partner, hpair, -⟩ := hopens header hheader
    rw [hpair.closing?_eq] at hclose
    rw [← Option.some.inj hclose]
    exact (hpairs header partner hpair).2.2
  rw [hbrackets] at hpartner
  refine ⟨linked, hlinked, hsize.trans (by decide), ?_, ?_⟩
  · exact hpartner 1 4 (by decide +kernel) (by decide +kernel)
  · exact hpartner 0 5 (by decide +kernel) (by decide +kernel)

end LineScript
