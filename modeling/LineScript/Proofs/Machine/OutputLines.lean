import LineScript.Proofs.Machine.Advance
import LineScript.Proofs.Operand.Grouping
import LineScript.Proofs.Operand.NumberWords
import LineScript.Proofs.Program.Targets

/-!
# The lines that are written

An `out` statement writes its operands with a blank before each that is not a name. Seen word by
word this is simpler: each name is replaced by its value, quotation marks are left out of all other
words, and a blank stands before every word but the first and the names. How words are grouped into
operands does not show, since the words of a text have one blank between neighbours, and there are
no quotation marks in numbers and symbols.
-/

namespace LineScript

open Operand (Span Grouping)

variable {words : List String} {word : String} {span : Span} {spans : List Span}

/-- What is neither a text nor a name has no quotation marks. -/
theorem unquote_raw {operand : Operand} (h : operand ∈ Operand.classify words)
    (htext : operand.isText = false) (hname : operand.isName = false) :
    unquote operand.raw = operand.raw := by
  induction words using List.reverseRecOn with
  | nil => cases h
  | append_singleton words word ih =>
    rcases Operand.of_mem_classify_concat h with hbefore | rfl | hother
    · exact ih hbefore
    · rw [Operand.raw_ofWord]
      unfold Operand.ofWord at htext hname
      split at htext
      · rename_i hnumber
        exact unquote_of_not_mem (not_mem_of_isNumberWord hnumber)
      · rename_i hnumber
        rw [if_neg hnumber] at hname
        split at htext
        · cases htext
        · rename_i hopen
          rw [if_neg hopen] at hname
          split at hname
          · rename_i hsymbol
            exact unquote_of_not_mem (Operand.not_mem_of_isOperandSymbol hsymbol)
          · cases hname
    · rw [htext] at hother
      cases hother

/-- Each word that operands cover, with whether it is a name. -/
def namedWords (spans : List Span) : List (Bool × String) :=
  spans.flatMap fun span ↦ span.words.map fun word ↦ (span.operand.isName, word)

def writtenWord (scopes : ScopeTree) (scope : ScopeId) : Bool × String → String
  | (true, name) => ((scopes.get? scope name).map Value.display).getD ""
  | (false, word) => unquote word

section

variable (written : Bool × String → String) {entry : Bool × String}
  {entries : List (Bool × String)}

/-- A word behind others, with a blank before it unless it is a name. -/
def spaced (entry : Bool × String) : String :=
  if entry.1 then written entry else " " ++ written entry

/-- Words side by side, with a blank before each but the first and the names. -/
def lineOf : List (Bool × String) → String
  | [] => ""
  | first :: others => written first ++ String.join (others.map (spaced written))

theorem lineOf_append (first : Bool × String) (others more : List (Bool × String)) :
    lineOf written (first :: others ++ more) =
      lineOf written (first :: others) ++ String.join (more.map (spaced written)) := by
  rw [List.cons_append, lineOf, lineOf, List.map_append, String.join_append, String.append_assoc]

/-- A blank goes before words as it goes before the first of them. -/
theorem join_spaced (first : Bool × String) (others : List (Bool × String)) :
    String.join ((first :: others).map (spaced written)) =
      if first.1 then lineOf written (first :: others)
      else " " ++ lineOf written (first :: others) := by
  rw [List.map_cons, String.join_cons, spaced, lineOf]
  split
  · rfl
  · rw [String.append_assoc]

end

variable (scopes : ScopeTree) (scope : ScopeId)

/-- Words that are no names are the line without its quotation marks. -/
theorem lineOf_words (words : List String) :
    lineOf (writtenWord scopes scope) (words.map fun word ↦ (false, word)) =
      unquote (joinWords words) := by
  cases words with
  | nil => rfl
  | cons word others =>
    rw [unquote_joinWords, List.map_cons, lineOf, List.map_map]
    rfl

/-- An operand that is no name is displayed as it is written, without quotation marks. -/
theorem display_eq_unquote {operand : Operand} (hmem : operand ∈ Operand.classify words)
    (hname : operand.isName = false) : operand.display scopes scope = unquote operand.raw := by
  cases operand with
  | text raw => rfl
  | name raw => cases hname
  | number raw => exact (unquote_raw hmem rfl rfl).symm
  | symbol raw => exact (unquote_raw hmem rfl rfl).symm

/-- An operand is displayed as the words that it covers are written. -/
theorem display_eq_lineOf (hmem : span.operand ∈ Operand.classify words) :
    span.operand.display scopes scope = lineOf (writtenWord scopes scope)
      (span.words.map fun word ↦ (span.operand.isName, word)) := by
  cases hname : span.operand.isName with
  | false => rw [lineOf_words, ← span.raw_eq, display_eq_unquote scopes scope hmem hname]
  | true =>
    obtain ⟨raw, hraw⟩ : ∃ raw, span.operand = .name raw := by
      cases hoperand : span.operand with
      | name raw => exact ⟨raw, rfl⟩
      | text | number | symbol =>
        rw [hoperand] at hname
        cases hname
    rw [span.alone (by rw [hraw]; rfl), hraw]
    exact String.append_empty.symm

theorem namedWords_cons (span : Span) (others : List Span) : namedWords (span :: others) =
    span.words.map (fun word ↦ (span.operand.isName, word)) ++ namedWords others :=
  List.flatMap_cons

/-- Behind others, operands are displayed as the words that they cover are written. -/
theorem join_display (hmem : ∀ span ∈ spans, span.operand ∈ Operand.classify words) :
    String.join ((spans.map Span.operand).map fun operand ↦
      if operand.isName then operand.display scopes scope
      else " " ++ operand.display scopes scope) =
    String.join ((namedWords spans).map (spaced (writtenWord scopes scope))) := by
  induction spans with
  | nil => rfl
  | cons span others ih =>
    obtain ⟨hspan, hothers⟩ := List.forall_mem_cons.1 hmem
    obtain ⟨first, rest, hwords⟩ := List.exists_cons_of_ne_nil span.words_ne_nil
    rw [List.map_cons, List.map_cons, String.join_cons, ih hothers, namedWords_cons,
      List.map_append, String.join_append, display_eq_lineOf scopes scope hspan, hwords,
      List.map_cons, join_spaced]

/-- The line of operands is the line of the words that they cover. -/
theorem outputLine_eq_lineOf (hmem : ∀ span ∈ spans, span.operand ∈ Operand.classify words) :
    Machine.outputLine (·.display scopes scope) (spans.map Span.operand) =
      lineOf (writtenWord scopes scope) (namedWords spans) := by
  cases spans with
  | nil => rfl
  | cons span others =>
    obtain ⟨hspan, hothers⟩ := List.forall_mem_cons.1 hmem
    obtain ⟨first, rest, hwords⟩ := List.exists_cons_of_ne_nil span.words_ne_nil
    rw [List.map_cons, Machine.outputLine, join_display scopes scope hothers,
      display_eq_lineOf scopes scope hspan, namedWords_cons, hwords, List.map_cons, lineOf_append]

/-- Where no operand is a name, the line is all words without quotation marks. -/
theorem lineOf_of_not_name (hgrouping : Grouping words spans)
    (hnames : ∀ span ∈ spans, span.operand.isName = false) :
    lineOf (writtenWord scopes scope) (namedWords spans) = unquote (joinWords words) := by
  have hwords : namedWords spans = words.map fun word ↦ (false, word) := by
    rw [← hgrouping.covered, List.map_flatMap]
    refine List.flatMap_congr fun span hspan ↦ ?_
    rw [hnames span hspan]
  rw [hwords, lineOf_words]

theorem Output.writeLine_eq (output : Output) (line : String) :
    output.writeLine line = output.write (line ++ "\n") := by
  cases output with
  | kept text => exact congrArg Output.kept String.append_assoc
  | dropped => rfl

namespace Machine

variable {lines : List (List Word)} {linked : Linked} {program : Program} {m : Machine}
  {id : NodeId} {node : Node}

/-- What a step does that writes a line and nothing else. -/
structure Prints (m : Machine) (line : String) (after : Machine) : Prop where
  output : after.output = m.output.write (line ++ "\n")
  scopes : after.scopes = m.scopes
  calls : after.calls = m.calls
  staged : after.staged = m.staged
  input : after.input = m.input

theorem exists_prints_of_output (hcurrent : m.current = some id)
    (hnode : program.node? id = some node) (haction : node.action = .output) (elapsed : Nat) :
    ∃ after, m.step program elapsed = (after, .ok (program.next? id).isSome) ∧
      m.Prints (outputLine (·.display m.scopes node.scope) node.operands) after := by
  have hattempt : m.attempt program id node = m.runOutput node := by
    rw [attempt, haction]
  exact ⟨_, step_of_done hcurrent hnode hattempt, Output.writeLine_eq _ _, rfl, rfl, rfl, rfl⟩

/--
An `out` statement writes one line and changes nothing else. The line is made of the words of the
statement: a name is replaced by its value, quotation marks are left out of all other words, and a
blank stands before each word but the first and the names. Without names that is all words with a
blank between neighbours, but without quotation marks.
-/
theorem prints_of_linkLines (hlink : linkLines lines = .ok linked)
    (hnode : linked.program.node? id = some node) (haction : node.action = .output) :
    ∃ statement spans, (statementsOfLines lines)[id]? = some statement ∧
      node.operands = Operand.classify statement.operands ∧
      Grouping statement.operands spans ∧
      ∀ (m : Machine) (elapsed : Nat), m.current = some id → ∃ line after,
        m.step linked.program elapsed = (after, .ok (linked.program.next? id).isSome) ∧
        m.Prints line after ∧
        line = lineOf (writtenWord m.scopes node.scope) (namedWords spans) ∧
        ((∀ operand ∈ node.operands, operand.isName = false) →
          line = unquote (joinWords statement.operands)) := by
  have hid := Program.lt_size_of_node? hnode
  rw [size_of_link hlink] at hid
  have hstatement := List.getElem?_eq_getElem hid
  obtain ⟨found, hfound, -, hoperands, -⟩ := node_of_statement hlink hstatement
  obtain rfl := Option.some.inj (hnode.symm.trans hfound)
  obtain ⟨spans, hgrouping⟩ := Operand.exists_grouping (statementsOfLines lines)[id].operands
  refine ⟨_, spans, hstatement, hoperands, hgrouping, fun m elapsed hcurrent ↦ ?_⟩
  obtain ⟨after, hstep, hprints⟩ := exists_prints_of_output hcurrent hnode haction elapsed
  have hmem : ∀ span ∈ spans,
      span.operand ∈ Operand.classify (statementsOfLines lines)[id].operands := by
    intro span hspan
    rw [← hgrouping.operands]
    exact List.mem_map_of_mem hspan
  rw [hoperands, ← hgrouping.operands, outputLine_eq_lineOf m.scopes node.scope hmem] at hprints
  refine ⟨_, after, hstep, hprints, rfl, fun hnames ↦ lineOf_of_not_name _ _ hgrouping ?_⟩
  intro span hspan
  refine hnames span.operand ?_
  rw [hoperands]
  exact hmem span hspan

/-- A quoted text that a number splits. -/
def splitText : List (List Word) :=
  [[⟨"out", "split", 1⟩, ⟨"\"a", "split", 1⟩, ⟨"1", "split", 1⟩, ⟨"b\"", "split", 1⟩]]

theorem prints_splitText : ∃ linked node after, linkLines splitText = .ok linked ∧
    linked.program.node? 0 = some node ∧
    (start linked ⟨none, false⟩ ⟨[]⟩ .fresh).step linked.program 0 = (after, .ok false) ∧
    after.output = .kept "a 1 b\n" := by
  have hchecked : ((linkLines splitText).toOption.map fun linked ↦
      (linked.program.entry?, (linked.program.next? 0).isSome,
        (linked.program.node? 0).map fun node ↦
          (match node.action with | .output => true | _ => false,
            node.operands.any Operand.isName))) =
      some (some 0, false, some (true, false)) := by
    decide +kernel
  obtain ⟨linked, hlinked, hfacts⟩ := Chain.exists_of_map_toOption hchecked
  obtain ⟨hentry, hrest⟩ := Prod.mk.inj hfacts
  obtain ⟨hnext, hnode⟩ := Prod.mk.inj hrest
  obtain ⟨node, hnode, hkinds⟩ := Option.map_eq_some_iff.1 hnode
  obtain ⟨houtput, hnames⟩ := Prod.mk.inj hkinds
  have haction : node.action = .output := by
    split at houtput
    · assumption
    · cases houtput
  obtain ⟨statement, spans, hstatement, -, -, hprints⟩ :=
    prints_of_linkLines hlinked hnode haction
  obtain rfl := Option.some.inj hstatement
  obtain ⟨line, after, hstep, hafter, -, hline⟩ :=
    hprints (start linked ⟨none, false⟩ ⟨[]⟩ .fresh) 0 hentry
  rw [hnext] at hstep
  refine ⟨linked, node, after, hlinked, hnode, hstep, ?_⟩
  have hother : ∀ operand ∈ node.operands, operand.isName = false := by
    simpa using hnames
  rw [hafter.output, hline hother]
  change Output.fresh.write (unquote (joinWords ["\"a", "1", "b\""]) ++ "\n") = _
  decide

end Machine

end LineScript
