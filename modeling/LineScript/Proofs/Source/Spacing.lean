import LineScript.Proofs.Text.Words
import LineScript.Source.Statement

/-!
# Spacing and comments

How the words of a line are spaced and where the line stands leaves no trace in the words of the
statement that it holds, and lines without a statement may be put in and taken out. So two texts
that differ in nothing else hold statements with the same words.
-/

namespace LineScript

variable {file file' : String} {line line' : List Char} {words : List (List Char)}

/-- A line holds words in order, with blanks around and between them. -/
inductive Spread : List (List Char) → List Char → Prop where
  | blank {gap : List Char} : (∀ c ∈ gap, isBlank c = true) → Spread [] gap
  | word {gap word rest : List Char} {words : List (List Char)} :
      (∀ c ∈ gap, isBlank c = true) → word ≠ [] → (∀ c ∈ word, isBlank c = false) →
      EndsWord rest → Spread words rest → Spread (word :: words) (gap ++ (word ++ rest))

theorem spread_iff : Spread words line ↔ wordsOf line = words := by
  constructor
  · intro h
    induction h with
    | blank hblank => exact wordsOf_eq_nil_iff.2 hblank
    | word hgap hne hword hends _ ih =>
      rw [wordsOf_append_of_blank hgap, wordsOf_append hne hword hends, ih]
  · intro h
    induction words generalizing line with
    | nil => exact .blank (wordsOf_eq_nil_iff.1 h)
    | cons word words ih =>
      obtain ⟨gap, first, rest, rfl, hgap, hfirst, hends, hempty⟩ := exists_split line
      rw [wordsOf_append_of_blank hgap] at h
      by_cases hne : first = []
      · rw [hne, hempty hne] at h
        cases h
      · rw [wordsOf_append hne hfirst hends] at h
        obtain ⟨rfl, hrest⟩ := List.cons.inj h
        exact .word hgap hne hfirst hends (ih hrest)

theorem Spread.ne_nil {word : List Char} (h : Spread words line)
    (hmem : word ∈ words) : word ≠ [] := by
  induction h with
  | blank => cases hmem
  | word _ hne _ _ _ ih =>
    rcases List.mem_cons.1 hmem with rfl | hrest
    · exact hne
    · exact ih hrest

theorem Spread.isBlank_eq_false {word : List Char} (h : Spread words line) (hmem : word ∈ words) :
    ∀ c ∈ word, isBlank c = false := by
  induction h with
  | blank => cases hmem
  | word _ _ hword _ _ ih =>
    rcases List.mem_cons.1 hmem with rfl | hrest
    · exact hword
    · exact ih hrest

/-- A line that holds no statement: it is blank, or a comment. -/
inductive Idle : List Char → Prop where
  | blank {gap : List Char} : (∀ c ∈ gap, isBlank c = true) → Idle gap
  | comment {gap : List Char} (text : List Char) : (∀ c ∈ gap, isBlank c = true) →
      Idle (gap ++ '#' :: text)

/-- The words of the statement that a line holds, if it holds one. -/
def lineWords? (line : List Char) : Option (List String) :=
  match wordsOf line with
  | [] => none
  | keyword :: operands =>
    if keyword.head? = some '#' then none
    else some (.ofList keyword :: operands.map .ofList)

/-- The words of a statement are those of its line, wherever it stands. -/
theorem words_ofLine? (file : String) (number : Nat) (line : List Char) :
    (Statement.ofLine? file number line).map Statement.words = lineWords? line := by
  unfold Statement.ofLine? lineWords?
  cases wordsOf line with
  | nil => rfl
  | cons keyword operands =>
    dsimp only
    split <;> rfl

theorem words_statementsOf (file text : String) :
    (statementsOf file text).map Statement.words =
      (linesOf text.toList).filterMap lineWords? := by
  calc
    (statementsOf file text).map Statement.words =
        ((linesOf text.toList).zipIdx 1).filterMap fun numbered ↦ lineWords? numbered.1 := by
      rw [statementsOf, numberedLines, List.map_filterMap]
      exact congrArg (List.filterMap · _) (funext fun numbered ↦ words_ofLine? _ _ _)
    _ = (((linesOf text.toList).zipIdx 1).map Prod.fst).filterMap lineWords? := by
      rw [List.filterMap_map]
      rfl
    _ = (linesOf text.toList).filterMap lineWords? := by rw [List.zipIdx_map_fst]

theorem Idle.lineWords?_eq_none (h : Idle line) : lineWords? line = none := by
  unfold lineWords?
  cases h with
  | blank hblank => rw [wordsOf_eq_nil_iff.2 hblank]
  | @comment gap text hgap =>
    have hwords : wordsOf (gap ++ '#' :: text) =
        ('#' :: (splitFirstWord text).1) :: (splitFirstWord text).2 := by
      rw [wordsOf_append_of_blank hgap, wordsOf_eq, splitFirstWord_cons]
      rfl
    rw [hwords]
    rfl

/-- Lines are respaced: each line keeps its words, and lines without a statement come and go. -/
inductive Respaced : List (List Char) → List (List Char) → Prop where
  | nil : Respaced [] []
  | keep {line line' : List Char} {rest rest' : List (List Char)} (words : List (List Char)) :
      Spread words line → Spread words line' → Respaced rest rest' →
      Respaced (line :: rest) (line' :: rest')
  | insert {line' : List Char} {rest rest' : List (List Char)} : Idle line' →
      Respaced rest rest' → Respaced rest (line' :: rest')
  | remove {line : List Char} {rest rest' : List (List Char)} : Idle line →
      Respaced rest rest' → Respaced (line :: rest) rest'

theorem Respaced.words_eq {lines lines' : List (List Char)} (h : Respaced lines lines') :
    lines'.filterMap lineWords? = lines.filterMap lineWords? := by
  induction h with
  | nil => rfl
  | @keep line line' _ _ words hline hline' _ ih =>
    have hsame : lineWords? line' = lineWords? line := by
      rw [lineWords?, spread_iff.1 hline', lineWords?, spread_iff.1 hline]
    rw [List.filterMap_cons, List.filterMap_cons, hsame, ih]
  | insert hidle _ ih => rw [List.filterMap_cons_none hidle.lineWords?_eq_none, ih]
  | remove hidle _ ih => rw [List.filterMap_cons_none hidle.lineWords?_eq_none, ih]

/-- Texts that differ in spacing, blank lines and comments hold statements with the same words. -/
theorem words_statementsOf_of_respaced {text text' : String}
    (h : Respaced (linesOf text.toList) (linesOf text'.toList)) :
    (statementsOf file' text').map Statement.words =
      (statementsOf file text).map Statement.words := by
  rw [words_statementsOf, words_statementsOf, h.words_eq]

example : (statementsOf "a" "# sum\n\n  out\t1   2").map Statement.words =
    (statementsOf "b" "out 1 2").map Statement.words := by
  decide +kernel

end LineScript
