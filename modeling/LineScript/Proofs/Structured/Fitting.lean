import LineScript.Proofs.Program.Blocks
import LineScript.Proofs.Structured.Interpreter

/-!
# Outlines and links

The outline of a program that links fits its nodes: the lines of the outline are statements that
bound no block, and its blocks are headers and ends that refer to each other. The body that the
outline has for the header of a function is the part of the program between the header and its
`end`.
-/

namespace LineScript.Structured

/-- The nodes from one position up to another are laid out as an outline says. -/
inductive Fits (program : Program) : Nat → Outline → Nat → Prop where
  | empty (p : Nat) : Fits program p .empty p
  | line {p q : Nat} {rest : Outline} {node : Node} : program.node? p = some node →
      node.action.bracket = .plain → Fits program (p + 1) rest q → Fits program p (.line p rest) q
  | block {p e q : Nat} {inside rest : Outline} : program.Block p e →
      Fits program (p + 1) inside e → Fits program (e + 1) rest q →
      Fits program p (.block p inside e rest) q

variable {program : Program} {outline : Outline}

/-- The outline has a body for every header of a function in its range, and the body fits. -/
theorem Fits.exists_body {p q : Nat} (h : Fits program p outline q) {header : Nat} {node : Node}
    {past : Option NodeId} {signature : Signature} (hnode : program.node? header = some node)
    (haction : node.action = .function past signature) (hlow : p ≤ header) (hhigh : header < q) :
    ∃ body close, body? header outline = some body ∧ program.Block header close ∧
      Fits program (header + 1) body close := by
  induction h with
  | empty p => omega
  | @line p q rest found hfound hplain _ ih =>
    have hne : header ≠ p := by
      rintro rfl
      rw [hnode] at hfound
      cases hfound
      rw [haction] at hplain
      cases hplain
    exact ih (by omega) hhigh
  | @block p e q inside rest hblock hinside hrest ihInside ihRest =>
    unfold body?
    by_cases hsame : header = p
    · subst hsame
      rw [if_pos rfl]
      exact ⟨inside, e, rfl, hblock, hinside⟩
    rw [if_neg hsame]
    by_cases hbefore : header < e
    · rw [if_pos hbefore]
      exact ihInside (by omega) hbefore
    · rw [if_neg hbefore]
      have hne : header ≠ e := by
        rintro rfl
        cases hblock with
        | loop _ hend | branch _ hend | function _ hend =>
          rw [hend.action_eq hnode] at haction
          cases haction
      exact ihRest (by omega) hhigh

variable {statements : List Statement} {linked : Linked}

theorem fits_of_spans (hlink : link statements = .ok linked) {p q : Nat}
    (hspans : Outline.Spans p outline q) {before after : List Bracket}
    (hword : linked.program.brackets = before ++ (outline.word ++ after))
    (hlength : before.length = p) : Fits linked.program p outline q := by
  induction hspans generalizing before after with
  | empty p => exact .empty p
  | @line p q rest _ ih =>
    have hbracket : linked.program.brackets[p]? = some .plain := by
      rw [hword, ← hlength]
      simp [Outline.word]
    obtain ⟨node, hnode, hplain⟩ := exists_node_of_bracket hbracket
    have hrest : linked.program.brackets = (before ++ [.plain]) ++ (rest.word ++ after) := by
      rw [hword]
      simp [Outline.word]
    exact .line hnode hplain (ih hrest (by simp [hlength]))
  | @block p e q inside rest hinside hrest ihInside ihRest =>
    have hstop := hinside.stop_eq
    have hpair : Bracket.Pair linked.program.brackets p e := by
      refine ⟨before, inside.word, rest.word ++ after, ?_, inside.balanced_word, hlength, ?_⟩
      · rw [hword]
        simp [Outline.word]
      · omega
    have hinner : linked.program.brackets =
        (before ++ [.opens]) ++ (inside.word ++ .closes :: (rest.word ++ after)) := by
      rw [hword]
      simp [Outline.word]
    have hafter : linked.program.brackets =
        (before ++ .opens :: (inside.word ++ [.closes])) ++ (rest.word ++ after) := by
      rw [hword]
      simp [Outline.word]
    have hclose :
        (before ++ Bracket.opens :: (inside.word ++ [Bracket.closes])).length = e + 1 := by
      rw [List.length_append, List.length_cons, List.length_append, List.length_singleton]
      omega
    exact .block (block_of_pair hlink hpair) (ihInside hinner (by simp [hlength]))
      (ihRest hafter hclose)

/-- The outline read off the keywords of a program that links fits its nodes. -/
theorem fits_of_link (hlink : link statements = .ok linked)
    (houtline : Outline.ofBrackets (statements.map Statement.bracket) = some outline) :
    Fits linked.program 0 outline linked.program.size := by
  have hspans := Outline.spans_of_ofBrackets houtline
  rw [List.length_map, ← size_of_link hlink] at hspans
  have hword : linked.program.brackets = [] ++ (outline.word ++ []) :=
    calc
      linked.program.brackets = statements.map Statement.bracket := brackets_of_link hlink
      _ = outline.word := (Outline.word_of_ofBrackets houtline).symm
      _ = [] ++ (outline.word ++ []) := (List.append_nil outline.word).symm
  exact fits_of_spans hlink hspans hword rfl

end LineScript.Structured
