import LineScript.Formula
import LineScript.Proofs.Text.Words

/-!
# Words and the operands that they form

Every operand is written with words of its statement: it is one word, or the words of a quoted text
with a blank between neighbours. So what holds of all words and is kept by joining holds of the text
of every operand, and operands of words that are not blank spell out a text that is not blank.
Together the operands spell out their words, and a symbol in front is a word by itself.
-/

namespace LineScript

namespace Operand

variable {state : List Operand × Bool} {word : String} {words : List String}

/-- A word becomes an operand, or joins the quoted text before it. -/
theorem raw_of_mem_addWord {operand : Operand} (h : operand ∈ (addWord state word).1) :
    operand ∈ state.1 ∨ operand.raw = word ∨
      ∃ earlier ∈ state.1, operand.raw = earlier.raw ++ " " ++ word := by
  obtain ⟨operands, quoted⟩ := state
  unfold addWord at h
  dsimp only at h
  split at h
  · rcases List.mem_cons.1 h with rfl | hrest
    · exact .inr (.inl rfl)
    · exact .inl hrest
  · split at h
    · split at h
      · rcases List.mem_cons.1 h with rfl | hrest
        · exact .inr (.inr ⟨_, List.mem_cons_self, rfl⟩)
        · exact .inl (List.mem_cons_of_mem _ hrest)
      · rcases List.mem_cons.1 h with rfl | hrest
        · exact .inr (.inl rfl)
        · exact .inl hrest
    · split at h
      all_goals
        rcases List.mem_cons.1 h with rfl | hrest
        · exact .inr (.inl rfl)
        · exact .inl hrest

/-- What holds of words, and of texts that are joined where it holds of both, holds of operands. -/
theorem raw_of_mem_classify {good : String → Prop} (hwords : ∀ word ∈ words, good word)
    (hjoin : ∀ before after, good before → good after → good (before ++ " " ++ after)) :
    ∀ operand ∈ classify words, good operand.raw := by
  have hfold : ∀ state : List Operand × Bool, (∀ operand ∈ state.1, good operand.raw) →
      ∀ operand ∈ (words.foldl addWord state).1, good operand.raw := by
    induction words with
    | nil => exact fun _ hstate ↦ hstate
    | cons word rest ih =>
      intro state hstate
      refine ih (fun other hmem ↦ hwords other (List.mem_cons_of_mem _ hmem)) _ ?_
      intro operand hmem
      have hword := hwords word List.mem_cons_self
      rcases raw_of_mem_addWord hmem with hbefore | hraw | ⟨earlier, hearlier, hraw⟩
      · exact hstate operand hbefore
      · rwa [hraw]
      · rw [hraw]
        exact hjoin _ _ (hstate earlier hearlier) hword
  intro operand hmem
  exact hfold ([], false) (by simp) operand (List.mem_reverse.1 hmem)

end Operand

/-- A text consists of blanks, as one without characters does. -/
def IsBlankText (text : String) : Prop :=
  ∀ c ∈ text.toList, isBlank c = true

instance (text : String) : Decidable (IsBlankText text) :=
  decidable_of_iff (text.toList.all isBlank = true) List.all_eq_true

/-- Operands of words that are not blank are not blank. -/
theorem Operand.not_isBlankText_raw {words : List String}
    (hwords : ∀ word ∈ words, ¬ IsBlankText word) :
    ∀ operand ∈ Operand.classify words, ¬ IsBlankText operand.raw := by
  refine Operand.raw_of_mem_classify hwords fun before after hbefore _ hjoined ↦ hbefore ?_
  intro c hc
  exact hjoined c (by simp [hc])

/-- Operands of which one is not blank are no empty formula. -/
theorem Formula.compile_ne_empty {operands : List Operand} {operand : Operand}
    (hmem : operand ∈ operands) (hoperand : ¬ IsBlankText operand.raw) :
    Formula.compile operands ≠ .error .empty := by
  have hspell : ¬ (trimBlanks (Formula.spell operands).toList).isEmpty = true := by
    rw [List.isEmpty_iff, trimBlanks_eq_nil_iff]
    intro hblank
    apply hoperand
    intro c hc
    exact hblank c (toList_subset_joinWords (List.mem_map_of_mem hmem) hc)
  unfold Formula.compile
  dsimp only
  rw [if_neg hspell]
  split <;> simp

/-- A formula is kept with the text that its operands spell out. -/
theorem Formula.text_of_compile {operands : List Operand} {formula : Formula}
    (h : Formula.compile operands = .ok formula) : formula.text = Formula.spell operands := by
  unfold Formula.compile at h
  dsimp only at h
  split at h
  · cases h
  · split at h
    · cases h
      rfl
    · cases h

namespace Operand

variable {state : List Operand × Bool} {word : String} {words : List String}

/-- A word adds itself to what operands spell out. -/
theorem joinWords_addWord (after : List String) :
    joinWords ((addWord state word).1.reverse.map raw ++ after) =
      joinWords (state.1.reverse.map raw ++ word :: after) := by
  obtain ⟨operands, quoted⟩ := state
  have hpush : ∀ operand : Operand, operand.raw = word →
      joinWords ((operand :: operands).reverse.map raw ++ after) =
        joinWords (operands.reverse.map raw ++ word :: after) := by
    rintro operand rfl
    simp
  unfold addWord
  dsimp only
  split
  · exact hpush _ rfl
  · split
    · split
      · rename_i text others _
        simpa [raw] using joinWords_join (others.reverse.map raw) text word after
      · exact hpush _ rfl
    · split
      all_goals exact hpush _ rfl

/-- The operand of the first word stays the first, and a quoted text may only grow. -/
theorem exists_getLast?_addWord {bottom : Operand} (h : state.1.getLast? = some bottom)
    (word : String) : ∃ grown, (addWord state word).1.getLast? = some grown ∧
      (grown = bottom ∨ ∃ raw raw', bottom = .text raw ∧ grown = .text raw') := by
  obtain ⟨operands, quoted⟩ := state
  dsimp only at h
  have hne : operands ≠ [] := by
    rintro rfl
    cases h
  have hpush : ∀ operand, (operand :: operands).getLast? = some bottom := by
    intro operand
    rw [List.getLast?_cons_of_ne_nil hne, h]
  unfold addWord
  dsimp only
  split
  · exact ⟨bottom, hpush _, .inl rfl⟩
  · split
    · split
      · rename_i text others _
        cases others with
        | nil =>
          cases h
          exact ⟨_, rfl, .inr ⟨_, _, rfl, rfl⟩⟩
        | cons next rest => exact ⟨bottom, h, .inl rfl⟩
      · exact ⟨bottom, hpush _, .inl rfl⟩
    · split
      all_goals exact ⟨bottom, hpush _, .inl rfl⟩

/-- No word joins a symbol, so what comes after one is not touched by it. -/
theorem addWord_append_symbol (operands : List Operand) (quoted : Bool) (symbol : String) :
    addWord (operands ++ [.symbol symbol], quoted) word =
      ((addWord (operands, quoted) word).1 ++ [.symbol symbol],
        (addWord (operands, quoted) word).2) := by
  unfold addWord
  dsimp only
  congr 1
  split
  · rfl
  · split
    · cases operands with
      | nil => cases quoted <;> rfl
      | cons first rest => cases quoted <;> cases first <;> rfl
    · split <;> rfl

end Operand

/-- Operands spell out their words. -/
theorem Formula.spell_classify (words : List String) :
    Formula.spell (Operand.classify words) = joinWords words := by
  have hfold : ∀ state : List Operand × Bool,
      joinWords ((words.foldl Operand.addWord state).1.reverse.map Operand.raw) =
        joinWords (state.1.reverse.map Operand.raw ++ words) := by
    induction words with
    | nil => simp
    | cons word rest ih =>
      intro state
      rw [List.foldl_cons, ih, Operand.joinWords_addWord]
  exact hfold ([], false)

namespace Operand

variable {word : String} {words : List String}

/-- The first word forms an operand, which is a symbol only if the word is one. -/
theorem exists_addWord_nil (word : String) :
    ∃ first, addWord ([], false) word = ([first], hasOddQuotes word) ∧
      ∀ symbol, first = .symbol symbol → symbol = word ∧ isOperandSymbol word = true := by
  unfold addWord
  dsimp only
  rw [Bool.false_or, Bool.false_bne]
  split
  · exact ⟨_, rfl, fun symbol hsymbol ↦ by cases hsymbol⟩
  · split
    · exact ⟨_, rfl, fun symbol hsymbol ↦ by cases hsymbol⟩
    · split
      · rename_i hsymbol
        refine ⟨_, rfl, fun symbol hsame ↦ ?_⟩
        cases hsame
        exact ⟨rfl, hsymbol⟩
      · exact ⟨_, rfl, fun symbol hsymbol ↦ by cases hsymbol⟩

/-- There are no quotation marks in a symbol. -/
theorem not_mem_of_isOperandSymbol (h : isOperandSymbol word = true) : '"' ∉ word.toList := by
  have hall : operandSymbols.all (fun symbol ↦ !symbol.toList.contains '"') = true := by decide
  simpa using List.all_eq_true.1 hall word (List.contains_iff_mem.1 h)

theorem hasOddQuotes_of_symbol (h : isOperandSymbol word = true) : hasOddQuotes word = false := by
  rw [hasOddQuotes, List.count_eq_zero.2 (not_mem_of_isOperandSymbol h)]
  rfl

/-- A symbol in front is a word of its own, and the other words form operands without it. -/
theorem eq_cons_of_classify {symbol : String} {value : List Operand}
    (h : classify words = .symbol symbol :: value) :
    ∃ rest, words = symbol :: rest ∧ value = classify rest := by
  cases words with
  | nil => cases h
  | cons word rest =>
    -- What the first word forms stays in front, except that a quoted text may grow.
    have hkeep : ∀ (state : List Operand × Bool) (bottom : Operand),
        state.1.getLast? = some bottom →
        (rest.foldl addWord state).1.getLast? = some (.symbol symbol) →
        bottom = .symbol symbol := by
      clear h
      induction rest with
      | nil =>
        intro state bottom hbottom hsymbol
        exact Option.some.inj (hbottom.symm.trans hsymbol)
      | cons next rest ih =>
        intro state bottom hbottom hsymbol
        obtain ⟨grown, hgrown, hsame | ⟨raw, raw', -, htext⟩⟩ :=
          exists_getLast?_addWord hbottom next
        · rw [← hsame]
          exact ih _ _ hgrown hsymbol
        · have hcontra := ih _ _ hgrown hsymbol
          rw [htext] at hcontra
          cases hcontra
    have hbehind : ∀ (operands : List Operand) (quoted : Bool),
        (rest.foldl addWord (operands ++ [.symbol symbol], quoted)).1 =
          (rest.foldl addWord (operands, quoted)).1 ++ [.symbol symbol] := by
      clear h hkeep
      induction rest with
      | nil => exact fun _ _ ↦ rfl
      | cons next rest ih =>
        intro operands quoted
        rw [List.foldl_cons, addWord_append_symbol, ih, List.foldl_cons]
    obtain ⟨first, hfirst, hsymbol⟩ := exists_addWord_nil word
    have hlast : (rest.foldl addWord ([first], hasOddQuotes word)).1.getLast? =
        some (.symbol symbol) := by
      rw [← hfirst, ← List.head?_reverse]
      exact congrArg List.head? h
    obtain rfl := hkeep ([first], hasOddQuotes word) first rfl hlast
    obtain ⟨rfl, hisSymbol⟩ := hsymbol symbol rfl
    rw [classify, List.foldl_cons, hfirst, hasOddQuotes_of_symbol hisSymbol,
      ← List.nil_append [Operand.symbol symbol], hbehind, List.reverse_append] at h
    exact ⟨rest, rfl, (List.cons.inj h).2.symm⟩

end Operand

end LineScript
