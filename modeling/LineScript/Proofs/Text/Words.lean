import LineScript.Text.Words
import Mathlib.Data.List.TakeWhile

/-!
# Words and blanks

How the words of a text stand in it: blanks at its start belong to no word, and a longest run of
characters that are not blank is one word. So the first word of a text can be split off together
with the blanks before it, and a text has no words exactly when it is blank. Blanks on either side
of a text change nothing, and words that are joined by single blanks are read back.
-/

namespace LineScript

variable {c : Char} {text word before after : List Char}

theorem isBlank_of_isDigit {c : Char} (h : c.isDigit = true) : isBlank c = false := by
  rw [Char.isDigit, Bool.and_eq_true, decide_eq_true_eq, decide_eq_true_eq] at h
  have hsize : 48 ≤ c.toNat ∧ c.toNat ≤ 57 := h
  simp only [isBlank, blankRanges, List.any_eq_false, List.forall_mem_cons, Bool.and_eq_true,
    decide_eq_true_eq, List.not_mem_nil, false_imp_iff, implies_true, and_true]
  omega

theorem wordsOf_eq (text : List Char) :
    wordsOf text = consWord (splitFirstWord text).1 (splitFirstWord text).2 :=
  rfl

theorem splitFirstWord_cons (c : Char) (text : List Char) : splitFirstWord (c :: text) =
    if isBlank c then ([], consWord (splitFirstWord text).1 (splitFirstWord text).2)
    else (c :: (splitFirstWord text).1, (splitFirstWord text).2) :=
  rfl

/-- A blank in front of a text belongs to no word. -/
theorem wordsOf_cons_of_blank (hblank : isBlank c = true) (text : List Char) :
    wordsOf (c :: text) = wordsOf text := by
  unfold wordsOf splitFirstWord
  rw [List.foldr_cons]
  simp [hblank, consWord]

theorem wordsOf_append_of_blank (hbefore : ∀ c ∈ before, isBlank c = true) (text : List Char) :
    wordsOf (before ++ text) = wordsOf text := by
  induction before with
  | nil => rfl
  | cons c rest ih =>
    rw [List.cons_append, wordsOf_cons_of_blank (hbefore c List.mem_cons_self)]
    exact ih fun other hother ↦ hbefore other (List.mem_cons_of_mem c hother)

/-- Characters that are not blank join the word that follows them directly. -/
theorem splitFirstWord_append (hword : ∀ c ∈ word, isBlank c = false) (rest : List Char) :
    splitFirstWord (word ++ rest) =
      (word ++ (splitFirstWord rest).1, (splitFirstWord rest).2) := by
  induction word with
  | nil => rfl
  | cons c others ih =>
    have hothers := ih fun other hother ↦ hword other (List.mem_cons_of_mem c hother)
    have hc : isBlank c = false := hword c List.mem_cons_self
    rw [List.cons_append, splitFirstWord_cons, hothers, hc]
    rfl

/-- What follows a word: nothing, or a blank and more. -/
def EndsWord (after : List Char) : Prop :=
  ∀ c, after.head? = some c → isBlank c = true

theorem splitFirstWord_of_endsWord (hafter : EndsWord after) :
    splitFirstWord after = ([], wordsOf after) := by
  cases after with
  | nil => rfl
  | cons b rest =>
    rw [wordsOf_eq, splitFirstWord_cons, if_pos (hafter b rfl)]
    rfl

theorem splitFirstWord_append_of_endsWord (before : List Char) (hafter : EndsWord after) :
    splitFirstWord (before ++ after) =
      ((splitFirstWord before).1, (splitFirstWord before).2 ++ wordsOf after) := by
  induction before with
  | nil => exact splitFirstWord_of_endsWord hafter
  | cons c rest ih =>
    rw [List.cons_append, splitFirstWord_cons, ih, splitFirstWord_cons]
    split
    · unfold consWord
      split <;> rfl
    · rfl

/-- A text that is cut where no word goes on has the words of both parts. -/
theorem wordsOf_append_of_endsWord (before : List Char) (hafter : EndsWord after) :
    wordsOf (before ++ after) = wordsOf before ++ wordsOf after := by
  rw [wordsOf_eq, splitFirstWord_append_of_endsWord before hafter, wordsOf_eq before]
  unfold consWord
  split <;> rfl

/-- Characters that are not blank are one word, if there are any. -/
theorem wordsOf_of_forall_not_blank (hne : word ≠ []) (hword : ∀ c ∈ word, isBlank c = false) :
    wordsOf word = [word] := by
  have hfirst := splitFirstWord_append hword []
  rw [List.append_nil] at hfirst
  rw [wordsOf_eq, hfirst]
  change consWord (word ++ []) [] = _
  rw [List.append_nil, consWord, if_neg (by simpa using hne)]

/-- A longest run of characters that are not blank is one word. -/
theorem wordsOf_append (hne : word ≠ []) (hword : ∀ c ∈ word, isBlank c = false)
    (hafter : EndsWord after) : wordsOf (word ++ after) = word :: wordsOf after := by
  rw [wordsOf_append_of_endsWord word hafter, wordsOf_of_forall_not_blank hne hword]
  rfl

/-- A text is its blanks at the start, a run of characters that are not blank, and the rest. -/
theorem exists_split (text : List Char) : ∃ before word after, text = before ++ (word ++ after) ∧
    (∀ c ∈ before, isBlank c = true) ∧ (∀ c ∈ word, isBlank c = false) ∧ EndsWord after ∧
    (word = [] → after = []) := by
  refine ⟨text.takeWhile isBlank, (text.dropWhile isBlank).takeWhile (!isBlank ·),
    (text.dropWhile isBlank).dropWhile (!isBlank ·), ?_, ?_, ?_, ?_, ?_⟩
  · rw [List.takeWhile_append_dropWhile, List.takeWhile_append_dropWhile]
  · exact fun c hc ↦ List.mem_takeWhile_imp hc
  · intro c hc
    simpa using List.mem_takeWhile_imp hc
  · intro c hc
    have hstop := List.head?_dropWhile_not (!isBlank ·) (text.dropWhile isBlank)
    rw [hc] at hstop
    simpa using hstop
  · intro hempty
    cases hrest : text.dropWhile isBlank with
    | nil => rfl
    | cons c rest =>
      have hc := List.head?_dropWhile_not isBlank text
      rw [hrest] at hc hempty
      simp [show isBlank c = false by simpa using hc] at hempty

/-- The first word of a text stands after blanks, and the other words after it. -/
theorem exists_of_wordsOf_eq_cons {others : List (List Char)}
    (h : wordsOf text = word :: others) : ∃ before after, text = before ++ (word ++ after) ∧
      (∀ c ∈ before, isBlank c = true) ∧ EndsWord after ∧ wordsOf after = others := by
  obtain ⟨before, first, after, rfl, hbefore, hfirst, hafter, hempty⟩ := exists_split text
  rw [wordsOf_append_of_blank hbefore] at h
  by_cases hne : first = []
  · rw [hne, hempty hne] at h
    cases h
  · rw [wordsOf_append hne hfirst hafter] at h
    obtain ⟨rfl, rfl⟩ := List.cons.inj h
    exact ⟨before, after, rfl, hbefore, hafter, rfl⟩

/-- A text without words is blank. -/
theorem wordsOf_eq_nil_iff : wordsOf text = [] ↔ ∀ c ∈ text, isBlank c = true := by
  constructor
  · intro h
    obtain ⟨before, first, after, rfl, hbefore, hfirst, hafter, hempty⟩ := exists_split text
    rw [wordsOf_append_of_blank hbefore] at h
    by_cases hne : first = []
    · rwa [hempty hne, hne, List.append_nil, List.append_nil]
    · rw [wordsOf_append hne hfirst hafter] at h
      cases h
  · intro hblank
    have hwords := wordsOf_append_of_blank hblank []
    rwa [List.append_nil] at hwords

theorem trimBlanksLeft_append (hbefore : ∀ c ∈ before, isBlank c = true) (text : List Char) :
    trimBlanksLeft (before ++ text) = trimBlanksLeft text :=
  List.dropWhile_append_of_pos hbefore

theorem trimBlanks_append (hbefore : ∀ c ∈ before, isBlank c = true) (text : List Char) :
    trimBlanks (before ++ text) = trimBlanks text := by
  rw [trimBlanks, trimBlanksLeft_append hbefore, trimBlanks]

/-- Only of a blank text nothing is left. -/
theorem trimBlanks_eq_nil_iff : trimBlanks text = [] ↔ ∀ c ∈ text, isBlank c = true := by
  rw [trimBlanks, List.reverse_eq_nil_iff, List.dropWhile_eq_nil_iff]
  simp only [List.mem_reverse]
  constructor
  · intro hblank
    cases hleft : trimBlanksLeft text with
    | nil => exact List.dropWhile_eq_nil_iff.1 hleft
    | cons c rest =>
      have hc := List.head?_dropWhile_not isBlank text
      rw [show text.dropWhile isBlank = c :: rest from hleft] at hc
      have hmem := hblank c (by simp [hleft])
      simp [hmem] at hc
  · exact fun hblank c hc ↦ hblank c (List.dropWhile_subset _ hc)

/-- What is cut off a text on either side is blank. -/
theorem exists_trimBlanks (text : List Char) : ∃ before after,
    text = before ++ (trimBlanks text ++ after) ∧ (∀ c ∈ before, isBlank c = true) ∧
      ∀ c ∈ after, isBlank c = true := by
  refine ⟨text.takeWhile isBlank, ((trimBlanksLeft text).reverse.takeWhile isBlank).reverse,
    ?_, fun c hc ↦ List.mem_takeWhile_imp hc,
    fun c hc ↦ List.mem_takeWhile_imp (List.mem_reverse.1 hc)⟩
  rw [trimBlanks, ← List.reverse_append, List.takeWhile_append_dropWhile, List.reverse_reverse,
    trimBlanksLeft, List.takeWhile_append_dropWhile]

theorem trimBlanksLeft_of_forall_not_blank (h : ∀ c ∈ text, isBlank c = false) :
    trimBlanksLeft text = text := by
  cases text with
  | nil => rfl
  | cons c rest =>
    rw [trimBlanksLeft, List.dropWhile_cons_of_neg]
    simp [h c List.mem_cons_self]

/-- A text without blanks stays as it is. -/
theorem trimBlanks_of_forall_not_blank (h : ∀ c ∈ text, isBlank c = false) :
    trimBlanks text = text := by
  have hreverse : trimBlanksLeft text.reverse = text.reverse :=
    trimBlanksLeft_of_forall_not_blank fun c hc ↦ h c (List.mem_reverse.1 hc)
  rw [trimBlanks, trimBlanksLeft_of_forall_not_blank h]
  exact (congrArg List.reverse hreverse).trans text.reverse_reverse

/-- A text that was trimmed does not start with a blank. -/
theorem not_isBlank_of_head?_trimBlanks (hc : (trimBlanks text).head? = some c) :
    isBlank c = false := by
  have hleft := List.head?_dropWhile_not isBlank text
  have hprefix : trimBlanks text <+: trimBlanksLeft text := by
    rw [trimBlanks, ← List.reverse_suffix, List.reverse_reverse]
    exact List.dropWhile_suffix isBlank
  obtain ⟨rest, hrest⟩ := hprefix
  rw [show text.dropWhile isBlank = trimBlanksLeft text from rfl, ← hrest, List.head?_append,
    hc] at hleft
  exact hleft

/-- Trimming changes no words. -/
theorem wordsOf_trimBlanks (text : List Char) : wordsOf (trimBlanks text) = wordsOf text := by
  obtain ⟨before, after, htext, hbefore, hafter⟩ := exists_trimBlanks text
  have hends : EndsWord after := fun c hc ↦ hafter c (List.mem_of_mem_head? hc)
  have hwords := congrArg wordsOf htext
  rw [wordsOf_append_of_blank hbefore, wordsOf_append_of_endsWord _ hends,
    wordsOf_eq_nil_iff.2 hafter, List.append_nil] at hwords
  exact hwords.symm

/-- Words that are joined are part of the text. -/
theorem toList_subset_joinWords {word : String} {words : List String} (h : word ∈ words) :
    word.toList ⊆ (joinWords words).toList := by
  induction words with
  | nil => cases h
  | cons first rest ih =>
    cases rest with
    | nil =>
      rw [List.mem_singleton.1 h, joinWords, String.intercalate_singleton]
      exact List.Subset.refl _
    | cons second others =>
      rw [joinWords, String.intercalate_cons_cons, String.toList_append, String.toList_append]
      rcases List.mem_cons.1 h with rfl | hrest
      · rw [List.append_assoc]
        exact List.subset_append_left _ _
      · exact List.subset_append_of_subset_right _ (ih hrest)

/-- Besides the words, there is only a space in a text that is joined from them. -/
theorem mem_joinWords {words : List String} (hc : c ∈ (joinWords words).toList) :
    c = ' ' ∨ ∃ word ∈ words, c ∈ word.toList := by
  induction words with
  | nil => simp [joinWords] at hc
  | cons first rest ih =>
    cases rest with
    | nil =>
      rw [joinWords, String.intercalate_singleton] at hc
      exact .inr ⟨first, List.mem_cons_self, hc⟩
    | cons second others =>
      rw [joinWords, String.intercalate_cons_cons, String.toList_append, String.toList_append,
        List.append_assoc, List.mem_append, List.mem_append] at hc
      rcases hc with hfirst | hspace | hrest
      · exact .inr ⟨first, List.mem_cons_self, hfirst⟩
      · exact .inl (List.mem_singleton.1 hspace)
      · exact (ih hrest).imp_right fun ⟨word, hword, hmem⟩ ↦
          ⟨word, List.mem_cons_of_mem _ hword, hmem⟩

/-- Words that are joined are read back. -/
theorem wordsOf_joinWords {words : List String} (hne : ∀ word ∈ words, word ≠ "")
    (hwords : ∀ word ∈ words, ∀ c ∈ word.toList, isBlank c = false) :
    wordsOf (joinWords words).toList = words.map String.toList := by
  induction words with
  | nil => rfl
  | cons first rest ih =>
    obtain ⟨hfirst, hothers⟩ := List.forall_mem_cons.1 hwords
    obtain ⟨hfirstNe, hothersNe⟩ := List.forall_mem_cons.1 hne
    have hfirstNe : first.toList ≠ [] := by simpa using hfirstNe
    cases rest with
    | nil =>
      rw [joinWords, String.intercalate_singleton]
      exact wordsOf_of_forall_not_blank hfirstNe hfirst
    | cons second others =>
      have hends : EndsWord (' ' :: (joinWords (second :: others)).toList) := by
        intro c hc
        cases hc
        decide
      rw [joinWords, String.intercalate_cons_cons, String.toList_append, String.toList_append,
        List.append_assoc]
      change wordsOf (first.toList ++ ' ' :: (joinWords (second :: others)).toList) = _
      rw [wordsOf_append hfirstNe hfirst hends, wordsOf_cons_of_blank (by decide),
        ih hothersNe hothers, List.map_cons (f := String.toList) (a := first)]

/-- Two words with a blank between them are joined like the two words. -/
theorem joinWords_join (before : List String) (first second : String) (after : List String) :
    joinWords (before ++ (first ++ " " ++ second) :: after) =
      joinWords (before ++ first :: second :: after) := by
  induction before with
  | nil => cases after <;> simp [joinWords, String.append_assoc]
  | cons word rest ih =>
    rw [List.cons_append, List.cons_append, joinWords, joinWords,
      String.intercalate_cons_of_ne_nil (by simp), String.intercalate_cons_of_ne_nil (by simp)]
    exact congrArg _ ih

theorem unquote_append (before after : String) :
    unquote (before ++ after) = unquote before ++ unquote after := by
  rw [unquote, String.toList_append, List.filter_append, String.ofList_append, unquote, unquote]

theorem unquote_of_not_mem {text : String} (h : '"' ∉ text.toList) : unquote text = text := by
  rw [unquote, List.filter_eq_self.2, String.ofList_toList]
  intro c hc
  rw [bne_iff_ne]
  rintro rfl
  exact h hc

/-- Quotation marks are taken out of words one by one. -/
theorem unquote_joinWords (word : String) (words : List String) :
    unquote (joinWords (word :: words)) =
      unquote word ++ String.join (words.map fun other ↦ " " ++ unquote other) := by
  induction words generalizing word with
  | nil => rw [joinWords, String.intercalate_singleton, List.map_nil, String.join_nil,
      String.append_empty]
  | cons next others ih =>
    have hblank : unquote " " = " " := by decide
    calc
      unquote (joinWords (word :: next :: others)) =
          unquote (word ++ " " ++ joinWords (next :: others)) := by
        rw [joinWords, String.intercalate_cons_cons, joinWords]
      _ = unquote word ++ " " ++ unquote (joinWords (next :: others)) := by
        rw [unquote_append, unquote_append, hblank]
      _ = unquote word ++ String.join ((next :: others).map fun other ↦ " " ++ unquote other) := by
        rw [ih, List.map_cons, String.join_cons, String.append_assoc, String.append_assoc]

end LineScript
