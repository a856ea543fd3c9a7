import LineScript.Program.Line
import LineScript.Proofs.Source.Spacing
import LineScript.Proofs.Text.Lines

/-!
# Words with their places

Each line of a text that is neither blank nor a comment becomes a line of words, and each of its
words keeps the file and the number of the line. This is a normal form: written out again, every
line with single spaces and under its own number, the words are read back as they were.
-/

namespace LineScript

variable {file text : String} {number : Nat} {content : List Char} {line : List Word}

/-- The words of a line of a text, each with its place; a blank line and a comment have none. -/
def Word.ofLine? (file : String) (number : Nat) (content : List Char) : Option (List Word) :=
  let trimmed := trimBlanks content
  if trimmed = [] ∨ trimmed.head? = some '#' then none
  else some ((wordsOf trimmed).map fun word ↦ ⟨.ofList word, file, number⟩)

def wordLines (file text : String) : List (List Word) :=
  (numberedLines text).filterMap fun (content, number) ↦ Word.ofLine? file number content

/-- The words of a statement, each with the place of the statement. -/
def Statement.placedWords (s : Statement) : List Word :=
  s.words.map fun word ↦ ⟨word, s.file, s.line⟩

def lineNumber (line : List Word) : Nat :=
  (line.head?.map Word.line).getD 0

def lineText (line : List Word) : List Char :=
  (joinWords (line.map Word.text)).toList

/-- Lines of words, each under its own number, where the first line to be written has a number that
is given; lines that have no words are left empty. -/
def layOutFrom : Nat → List (List Word) → List Char
  | _, [] => []
  | number, line :: rest =>
    List.replicate (lineNumber line - number) '\n' ++
      (lineText line ++ '\n' :: layOutFrom (lineNumber line + 1) rest)

def layOut (lines : List (List Word)) : String :=
  .ofList (layOutFrom 1 lines)

/-- A text that was trimmed begins with its first word. -/
theorem head?_trimBlanks {word : List Char} {others : List (List Char)}
    (h : wordsOf content = word :: others) : (trimBlanks content).head? = word.head? := by
  rw [← wordsOf_trimBlanks] at h
  obtain ⟨before, after, hsplit, hbefore, -, -⟩ := exists_of_wordsOf_eq_cons h
  cases before with
  | nil =>
    have hne : word ≠ [] := (spread_iff.2 h).ne_nil List.mem_cons_self
    rw [hsplit, List.nil_append, List.head?_append, Option.or_of_isSome]
    rwa [List.isSome_head?]
  | cons first rest =>
    have hfirst : (trimBlanks content).head? = some first := by
      rw [hsplit]
      rfl
    have hblank := not_isBlank_of_head?_trimBlanks hfirst
    rw [hbefore first List.mem_cons_self] at hblank
    cases hblank

theorem Word.ofLine?_of_blank (hwords : wordsOf content = []) :
    Word.ofLine? file number content = none :=
  if_pos (.inl (trimBlanks_eq_nil_iff.2 (wordsOf_eq_nil_iff.1 hwords)))

/-- A line has its words unless the first of them begins a comment. -/
theorem Word.ofLine?_of_words {keyword : List Char} {operands : List (List Char)}
    (hwords : wordsOf content = keyword :: operands) : Word.ofLine? file number content =
      if keyword.head? = some '#' then none
      else some ((keyword :: operands).map fun word ↦ ⟨.ofList word, file, number⟩) := by
  have hne : trimBlanks content ≠ [] := by
    rw [ne_eq, trimBlanks_eq_nil_iff, ← wordsOf_eq_nil_iff, hwords]
    exact List.cons_ne_nil _ _
  unfold Word.ofLine?
  dsimp only
  rw [wordsOf_trimBlanks, hwords, head?_trimBlanks hwords]
  simp only [hne, false_or]

/-- The words of a line are those of the statement that it holds. -/
theorem Word.ofLine?_eq (file : String) (number : Nat) (content : List Char) :
    Word.ofLine? file number content =
      (Statement.ofLine? file number content).map Statement.placedWords := by
  unfold Statement.ofLine?
  cases hwords : wordsOf content with
  | nil => exact Word.ofLine?_of_blank hwords
  | cons keyword operands =>
    rw [Word.ofLine?_of_words hwords]
    dsimp only
    split
    · rfl
    · rw [Option.map_some, Statement.placedWords, Statement.words, List.map_cons, List.map_cons,
        List.map_map]
      rfl

/-- A line has words unless it is blank or a comment. -/
theorem Word.ofLine?_eq_none_iff : Word.ofLine? file number content = none ↔ Idle content := by
  constructor
  · intro h
    cases hwords : wordsOf content with
    | nil => exact .blank (wordsOf_eq_nil_iff.1 hwords)
    | cons keyword operands =>
      obtain ⟨before, after, rfl, hbefore, -, -⟩ := exists_of_wordsOf_eq_cons hwords
      rw [Word.ofLine?_of_words hwords] at h
      split at h
      · rename_i hcomment
        obtain ⟨rest, rfl⟩ := List.head?_eq_some_iff.1 hcomment
        exact .comment _ hbefore
      · cases h
  · intro hidle
    have hwords := (words_ofLine? file number content).trans hidle.lineWords?_eq_none
    rw [Word.ofLine?_eq, Option.map_eq_none_iff.1 hwords]
    rfl

/-- What the words of a line of a text are like: they stand in the line in this order, with blanks
around and between them, each has the place of the line, and the first does not begin a comment. -/
structure HeldBy (file : String) (number : Nat) (content : List Char) (line : List Word) :
    Prop where
  spread : Spread (line.map fun word ↦ word.text.toList) content
  placed : ∀ word ∈ line, word.file = file ∧ word.line = number
  ne_nil : line ≠ []
  not_comment : ∀ first, line.head? = some first → first.text.toList.head? ≠ some '#'

theorem Word.ofLine?_eq_some_iff :
    Word.ofLine? file number content = some line ↔ HeldBy file number content line := by
  constructor
  · intro h
    cases hwords : wordsOf content with
    | nil =>
      rw [Word.ofLine?_of_blank hwords] at h
      cases h
    | cons keyword operands =>
      rw [Word.ofLine?_of_words hwords] at h
      split at h
      · cases h
      · rename_i hcomment
        obtain rfl := Option.some.inj h
        refine ⟨?_, ?_, List.cons_ne_nil _ _, ?_⟩
        · rw [spread_iff, hwords, List.map_map]
          simp [Function.comp_def]
        · intro word hword
          obtain ⟨_, -, rfl⟩ := List.mem_map.1 hword
          exact ⟨rfl, rfl⟩
        · intro first hfirst
          rwa [← Option.some.inj hfirst, String.toList_ofList]
  · rintro ⟨hspread, hplaced, hne, hcomment⟩
    obtain ⟨first, rest, rfl⟩ := List.exists_cons_of_ne_nil hne
    have hline : ((first :: rest).map fun word ↦ word.text.toList).map
        (fun word ↦ (⟨.ofList word, file, number⟩ : Word)) = first :: rest := by
      rw [List.map_map]
      refine (List.map_congr_left fun word hword ↦ ?_).trans (List.map_id _)
      obtain ⟨rfl, rfl⟩ := hplaced word hword
      exact congrArg (fun text ↦ { word with text }) String.ofList_toList
    rw [Word.ofLine?_of_words (spread_iff.1 hspread), if_neg (hcomment first rfl)]
    exact congrArg some hline

theorem Statement.ofWords?_placedWords (s : Statement) :
    Statement.ofWords? s.placedWords = some s := by
  rw [placedWords, words, List.map_cons, ofWords?, List.map_map]
  exact congrArg (fun operands ↦ some { s with operands }) (List.map_id s.operands)

theorem wordLines_eq (file text : String) :
    wordLines file text = (statementsOf file text).map Statement.placedWords := by
  rw [statementsOf, List.map_filterMap]
  exact congrArg (List.filterMap · _) (funext fun numbered ↦ Word.ofLine?_eq _ _ _)

/-- The lines of words of a text are linked like its statements. -/
theorem linkLines_wordLines (file text : String) :
    linkLines (wordLines file text) = link (statementsOf file text) := by
  rw [wordLines_eq, linkLines, statementsOfLines, List.filterMap_map]
  congr 1
  exact (congrArg (List.filterMap · _) (funext Statement.ofWords?_placedWords)).trans
    List.filterMap_some

/-- The lines of words of a text are those that its lines hold, under their numbers. -/
theorem mem_wordLines_iff : line ∈ wordLines file text ↔
    ∃ index content, (linesOf text.toList)[index]? = some content ∧
      HeldBy file (index + 1) content line := by
  simp only [wordLines, numberedLines, List.mem_filterMap, Prod.exists,
    List.mem_zipIdx_iff_le_and_getElem?_sub, Word.ofLine?_eq_some_iff]
  constructor
  · rintro ⟨content, number, ⟨hle, hcontent⟩, hheld⟩
    exact ⟨number - 1, content, hcontent, by rwa [Nat.sub_add_cancel hle]⟩
  · rintro ⟨index, content, hcontent, hheld⟩
    exact ⟨content, index + 1, ⟨Nat.le_add_left 1 index, hcontent⟩, hheld⟩

theorem HeldBy.lineNumber_eq (h : HeldBy file number content line) : lineNumber line = number := by
  obtain ⟨first, rest, rfl⟩ := List.exists_cons_of_ne_nil h.ne_nil
  exact (h.placed first List.mem_cons_self).2

theorem HeldBy.line_eq (h : HeldBy file number content line) {word : Word} (hword : word ∈ line) :
    word.line = lineNumber line := by
  rw [h.lineNumber_eq, (h.placed word hword).2]

/-- The lines of words of a text come in the order of their numbers. -/
theorem pairwise_wordLines (file text : String) :
    (wordLines file text).Pairwise (lineNumber · < lineNumber ·) := by
  have hnumbers : (numberedLines text).Pairwise (·.2 < ·.2) := by
    rw [← List.pairwise_map (R := (· < ·)), numberedLines, List.zipIdx_map_snd]
    exact List.pairwise_lt_range'
  refine List.Pairwise.filterMap _ (fun a b hlt line hline other hother ↦ ?_) hnumbers
  rw [(Word.ofLine?_eq_some_iff.1 hline).lineNumber_eq,
    (Word.ofLine?_eq_some_iff.1 hother).lineNumber_eq]
  exact hlt

/-! ## Written out again -/

theorem HeldBy.ne_empty (h : HeldBy file number content line) : ∀ word ∈ line, word.text ≠ "" := by
  intro word hword hempty
  refine h.spread.ne_nil (List.mem_map_of_mem hword) ?_
  rw [hempty]
  rfl

theorem HeldBy.isBlank_eq_false (h : HeldBy file number content line) :
    ∀ word ∈ line, ∀ c ∈ word.text.toList, isBlank c = false :=
  fun _ hword ↦ h.spread.isBlank_eq_false (List.mem_map_of_mem hword)

/-- What the words of a line are written as holds them again, however they stood before. -/
theorem HeldBy.heldBy_lineText (h : HeldBy file number content line) :
    HeldBy file number (lineText line) line := by
  refine ⟨?_, h.placed, h.ne_nil, h.not_comment⟩
  rw [spread_iff, lineText, wordsOf_joinWords, List.map_map]
  · rfl
  · exact List.forall_mem_map.2 h.ne_empty
  · exact List.forall_mem_map.2 h.isBlank_eq_false

/-- What the words of a line are written as is one line. -/
theorem HeldBy.mem_lineText (h : HeldBy file number content line) {c : Char}
    (hc : c ∈ lineText line) : c ≠ '\n' ∧ c ≠ '\r' := by
  have hplain : c = ' ' ∨ isBlank c = false := by
    refine (mem_joinWords hc).imp_right fun ⟨text, htext, hmem⟩ ↦ ?_
    obtain ⟨word, hword, rfl⟩ := List.mem_map.1 htext
    exact h.isBlank_eq_false word hword c hmem
  constructor <;>
  · rintro rfl
    exact absurd hplain (by decide)

theorem linesOf_replicate_append (count : Nat) (rest : List Char) :
    linesOf (List.replicate count '\n' ++ rest) = List.replicate count [] ++ linesOf rest := by
  induction count with
  | zero => rfl
  | succ count ih =>
    rw [List.replicate_succ, List.replicate_succ, List.cons_append, List.cons_append, ← ih]
    exact linesOf_append (List.forall_mem_nil _) _

/-- Lines that were written under their numbers are read back. -/
theorem filterMap_layOutFrom {lines : List (List Word)}
    (hheld : ∀ line ∈ lines, HeldBy file (lineNumber line) (lineText line) line)
    (hascending : lines.Pairwise (lineNumber · < lineNumber ·))
    (hfrom : ∀ line ∈ lines, number ≤ lineNumber line) :
    ((linesOf (layOutFrom number lines)).zipIdx number).filterMap
      (fun (content, number) ↦ Word.ofLine? file number content) = lines := by
  induction lines generalizing number with
  | nil => rfl
  | cons line rest ih =>
    obtain ⟨hline, hrest⟩ := List.forall_mem_cons.1 hheld
    obtain ⟨hfirst, hothers⟩ := List.pairwise_cons.1 hascending
    have hle := hfrom line List.mem_cons_self
    have hempty : ((List.replicate (lineNumber line - number) []).zipIdx number).filterMap
        (fun (content, number) ↦ Word.ofLine? file number content) = [] := by
      refine List.filterMap_eq_nil_iff.2 fun ⟨content, index⟩ hmem ↦ ?_
      have hcontent : content = [] := List.eq_of_mem_replicate (List.fst_mem_of_mem_zipIdx hmem)
      rw [hcontent]
      exact Word.ofLine?_of_blank rfl
    rw [layOutFrom, linesOf_replicate_append, linesOf_append fun _ ↦ hline.mem_lineText,
      List.zipIdx_append, List.filterMap_append, hempty, List.nil_append, List.length_replicate,
      Nat.add_sub_cancel' hle, List.zipIdx_cons, List.filterMap_cons]
    dsimp only
    rw [Word.ofLine?_eq_some_iff.2 hline, ih hrest hothers hfirst]

/-- The words of a text are a normal form of it. -/
theorem wordLines_layOut (file text : String) :
    wordLines file (layOut (wordLines file text)) = wordLines file text := by
  have hheld : ∀ line ∈ wordLines file text,
      1 ≤ lineNumber line ∧ HeldBy file (lineNumber line) (lineText line) line := by
    intro line hline
    obtain ⟨index, content, -, h⟩ := mem_wordLines_iff.1 hline
    rw [h.lineNumber_eq]
    exact ⟨Nat.le_add_left 1 index, h.heldBy_lineText⟩
  rw [wordLines, numberedLines, layOut, String.toList_ofList]
  exact filterMap_layOutFrom (fun line hline ↦ (hheld line hline).2) (pairwise_wordLines file text)
    fun line hline ↦ (hheld line hline).1

/--
Lines of words are those of a text: the words of its statements. Each line has the words of a line
of the text, in their order and with its place, and the first of them does not begin a comment; no
word is empty or has a blank in it. The numbers ascend, and a line of the text is left out exactly
if it is blank or a comment. Written out again, the lines are read as they were.
-/
structure Tokenizes (file text : String) (lines : List (List Word)) : Prop where
  statements : lines = (statementsOf file text).map Statement.placedWords
  held : ∀ line ∈ lines, ∃ index content, (linesOf text.toList)[index]? = some content ∧
    HeldBy file (index + 1) content line
  words : ∀ line ∈ lines, ∀ word ∈ line,
    word.text ≠ "" ∧ ∀ c ∈ word.text.toList, isBlank c = false
  ascending : lines.Pairwise fun line later ↦ ∀ word ∈ line, ∀ other ∈ later,
    word.line < other.line
  left_out : ∀ index content, (linesOf text.toList)[index]? = some content →
    ((∀ line ∈ lines, ∀ word ∈ line, word.line ≠ index + 1) ↔ Idle content)
  normal : wordLines file (layOut lines) = lines

/-- Every text is split into lines of words in this way. -/
theorem tokenizes_wordLines (file text : String) : Tokenizes file text (wordLines file text) := by
  refine ⟨wordLines_eq file text, fun line hline ↦ mem_wordLines_iff.1 hline, ?_, ?_, ?_,
    wordLines_layOut file text⟩
  · intro line hline word hword
    obtain ⟨index, content, -, h⟩ := mem_wordLines_iff.1 hline
    exact ⟨h.ne_empty word hword, h.isBlank_eq_false word hword⟩
  · refine (pairwise_wordLines file text).imp_of_mem fun hline hlater hlt word hword other hother ↦ ?_
    obtain ⟨_, _, -, h⟩ := mem_wordLines_iff.1 hline
    obtain ⟨_, _, -, h'⟩ := mem_wordLines_iff.1 hlater
    rwa [h.line_eq hword, h'.line_eq hother]
  · intro index content hcontent
    constructor
    · intro hnone
      cases hline : Word.ofLine? file (index + 1) content with
      | none => exact Word.ofLine?_eq_none_iff.1 hline
      | some line =>
        have h := Word.ofLine?_eq_some_iff.1 hline
        obtain ⟨word, hword⟩ := List.exists_mem_of_ne_nil line h.ne_nil
        exact absurd (h.placed word hword).2
          (hnone line (mem_wordLines_iff.2 ⟨index, content, hcontent, h⟩) word hword)
    · intro hidle line hline word hword hnumber
      obtain ⟨other, content', hcontent', h⟩ := mem_wordLines_iff.1 hline
      have hsame : other = index := Nat.succ.inj ((h.placed word hword).2.symm.trans hnumber)
      rw [hsame, hcontent] at hcontent'
      cases hcontent'
      have hnone : Word.ofLine? file (other + 1) content = none := Word.ofLine?_eq_none_iff.2 hidle
      rw [Word.ofLine?_eq_some_iff.2 h] at hnone
      cases hnone

example : layOut (wordLines "a" "# sum\n  out\t1   2\r\n\nout") = "\nout 1 2\n\nout\n" := by
  decide +kernel

end LineScript
