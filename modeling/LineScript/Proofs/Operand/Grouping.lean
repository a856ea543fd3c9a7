import LineScript.Proofs.Operand.Classify
import Mathlib.Data.List.Induction

/-!
# How words are grouped into operands

Operands cover the words of a statement from left to right, each a run of neighbouring words, so
that nothing is lost. Which operand a word lies in is settled by the word itself and by the words
before it: by the number of quotation marks in these, and by what the word directly before it
became.
-/

namespace LineScript

namespace Operand

def isText : Operand → Bool
  | text _ => true
  | _ => false

theorem isText_eq_true_iff {operand : Operand} :
    operand.isText = true ↔ ∃ raw, operand = .text raw := by
  cases operand <;> simp [isText]

def quotesIn (words : List String) : Nat :=
  (words.flatMap String.toList).count '"'

/-- An operand with the words that it covers. -/
structure Span where
  operand : Operand
  words : List String
  words_ne_nil : words ≠ []
  raw_eq : operand.raw = joinWords words
  alone : operand.isText = false → words = [operand.raw]

namespace Span

def single (operand : Operand) : Span :=
  ⟨operand, [operand.raw], List.cons_ne_nil _ _, String.intercalate_singleton.symm, fun _ ↦ rfl⟩

@[simp] theorem operand_single (operand : Operand) : (single operand).operand = operand := rfl

@[simp] theorem words_single (operand : Operand) : (single operand).words = [operand.raw] := rfl

/-- A quoted text that goes on with a word. -/
def extend (span : Span) (word : String) : Span where
  operand := .text (span.operand.raw ++ " " ++ word)
  words := span.words ++ [word]
  words_ne_nil := List.append_ne_nil_of_right_ne_nil _ (List.cons_ne_nil _ _)
  raw_eq := by
    rw [joinWords, String.intercalate_append_of_ne_nil span.words_ne_nil (List.cons_ne_nil _ _),
      String.intercalate_singleton, span.raw_eq, raw, joinWords]
  alone hother := by cases hother

@[simp] theorem operand_extend (span : Span) (word : String) :
    (span.extend word).operand = .text (span.operand.raw ++ " " ++ word) := rfl

@[simp] theorem words_extend (span : Span) (word : String) :
    (span.extend word).words = span.words ++ [word] := rfl

/--
What a word settles about the operand it lies in. A number is an operand by itself. Any other word
lies in a quoted text if one is open in front of it or if it starts with a quotation mark, and
otherwise it is a symbol or a name by itself.
-/
structure Suits (span : Span) (quoted : Bool) (word : String) : Prop where
  mem : word ∈ span.words
  number : isNumberWord word = true → span = single (.number word)
  text : isNumberWord word = false →
    (span.operand.isText = true ↔ quoted = true ∨ startsQuoted word = true)
  other : isNumberWord word = false → quoted = false → startsQuoted word = false →
    span = single (if isOperandSymbol word then .symbol word else .name word)

end Span

/-- The operand that a word forms when it does not join the one before it. -/
def ofWord (quoted : Bool) (word : String) : Operand :=
  if isNumberWord word then .number word
  else if quoted || startsQuoted word then .text word
  else if isOperandSymbol word then .symbol word
  else .name word

variable {words : List String} {word : String} {quoted : Bool} {span last : Span}
  {spans : List Span}

theorem raw_ofWord (quoted : Bool) (word : String) : (ofWord quoted word).raw = word := by
  unfold ofWord
  split
  · rfl
  · split
    · rfl
    · split <;> rfl

theorem Span.suits_ofWord (quoted : Bool) (word : String) :
    (Span.single (ofWord quoted word)).Suits quoted word where
  mem := by rw [words_single, raw_ofWord, List.mem_singleton]
  number hnumber := by rw [ofWord, if_pos hnumber]
  text hnumber := by
    rw [ofWord, if_neg (by simp [hnumber]), ← Bool.or_eq_true]
    by_cases hopen : (quoted || startsQuoted word) = true
    · rw [if_pos hopen]
      exact iff_of_true rfl hopen
    · rw [if_neg hopen]
      refine iff_of_false ?_ hopen
      split <;> exact Bool.false_ne_true
  other hnumber hquoted hstarts := by
    rw [ofWord, if_neg (by simp [hnumber]), if_neg (by simp [hquoted, hstarts])]

/-- A word that joins an open text lies in a text. -/
theorem Span.suits_extend (hnumber : isNumberWord word = false) :
    (span.extend word).Suits true word where
  mem := List.mem_concat_self
  number hother := absurd hother (by simp [hnumber])
  text _ := by simp [isText]
  other _ hquoted := by cases hquoted

/-- The words of a text do not mind that it goes on. -/
theorem Span.Suits.extend (h : span.Suits quoted word) (htext : span.operand.isText = true)
    (next : String) : (span.extend next).Suits quoted word := by
  have hsingle : ∀ {operand : Operand}, operand.isText = false → span ≠ single operand := by
    rintro operand hother rfl
    rw [operand_single, hother] at htext
    cases htext
  refine ⟨List.mem_append_left _ h.mem, fun hnumber ↦ absurd (h.number hnumber) (hsingle rfl),
    fun hnumber ↦ iff_of_true rfl ((h.text hnumber).1 htext),
    fun hnumber hquoted hstarts ↦ absurd (h.other hnumber hquoted hstarts) (hsingle ?_)⟩
  split <;> rfl

/-- For each word that operands cover, in order, the number of its operand. -/
def places (spans : List Span) : List Nat :=
  spans.zipIdx.flatMap fun (span, place) ↦ List.replicate span.words.length place

/-- The operand that a word lies in. -/
def spanAt? (spans : List Span) (position : Nat) : Option Span :=
  (places spans)[position]?.bind fun place ↦ spans[place]?

/-- Whether a word lies in a quoted text. -/
def LiesInText (spans : List Span) (position : Nat) : Prop :=
  ∃ span, spanAt? spans position = some span ∧ span.operand.isText = true

theorem places_concat (spans : List Span) (span : Span) : places (spans ++ [span]) =
    places spans ++ List.replicate span.words.length spans.length := by
  simp [places, List.zipIdx_append]

theorem length_places (spans : List Span) :
    (places spans).length = (spans.flatMap Span.words).length := by
  induction spans using List.reverseRecOn with
  | nil => rfl
  | append_singleton spans span ih => simp [places_concat, ih]

theorem lt_of_mem_places {place : Nat} (h : place ∈ places spans) : place < spans.length := by
  induction spans using List.reverseRecOn with
  | nil => cases h
  | append_singleton spans span ih =>
    rw [places_concat, List.mem_append] at h
    rw [List.length_append, List.length_singleton]
    rcases h with hbefore | hlast
    · exact Nat.lt_succ_of_lt (ih hbefore)
    · rw [List.eq_of_mem_replicate hlast]
      exact Nat.lt_succ_self _

/-- A word that forms an operand of its own has a place of its own. -/
theorem places_concat_single (spans : List Span) (operand : Operand) :
    places (spans ++ [.single operand]) = places spans ++ [spans.length] :=
  places_concat spans _

/-- A word that joins the last operand has the place of it. -/
theorem places_concat_extend (spans : List Span) (last : Span) (word : String) :
    places (spans ++ [last.extend word]) = places (spans ++ [last]) ++ [spans.length] := by
  rw [places_concat, places_concat, Span.words_extend, List.length_append, List.length_singleton,
    List.replicate_succ', List.append_assoc]

/-- The last word lies in the last operand. -/
theorem getElem?_places_concat {position : Nat}
    (h : (places (spans ++ [last])).length = position + 1) :
    (places (spans ++ [last]))[position]? = some spans.length := by
  have hlast : (places (spans ++ [last])).getLast? = some spans.length := by
    rw [places_concat, List.getLast?_append, List.getLast?_replicate,
      if_neg (by simp [last.words_ne_nil]), Option.some_or]
  rw [← hlast, List.getLast?_eq_getElem?, h, Nat.add_sub_cancel]

theorem spanAt?_concat {position : Nat} (h : (places (spans ++ [last])).length = position + 1) :
    spanAt? (spans ++ [last]) position = some last := by
  rw [spanAt?, getElem?_places_concat h, Option.bind_some, List.getElem?_concat_length]

/-- Words that came earlier stay where they are when a word forms an operand of its own. -/
theorem spanAt?_concat_single {position : Nat} (h : position < (places spans).length)
    (operand : Operand) :
    spanAt? (spans ++ [.single operand]) position = spanAt? spans position := by
  have hplace : (places spans)[position] < spans.length := lt_of_mem_places (List.getElem_mem h)
  rw [spanAt?, spanAt?, places_concat_single, List.getElem?_append_left h,
    List.getElem?_eq_getElem h, Option.bind_some, Option.bind_some,
    List.getElem?_append_left hplace]

theorem liesInText_concat_single_iff {position : Nat} (h : position < (places spans).length)
    (operand : Operand) :
    LiesInText (spans ++ [.single operand]) position ↔ LiesInText spans position := by
  rw [LiesInText, LiesInText, spanAt?_concat_single h]

theorem spanAt?_concat_single_length (spans : List Span) (operand : Operand) :
    spanAt? (spans ++ [.single operand]) (places spans).length = some (.single operand) := by
  rw [spanAt?, places_concat_single, List.getElem?_concat_length, Option.bind_some,
    List.getElem?_concat_length]

/-- Words that came earlier stay where they are when a word joins the last operand. -/
theorem spanAt?_concat_extend {position : Nat} (h : position < (places (spans ++ [last])).length)
    (word : String) :
    spanAt? (spans ++ [last.extend word]) position = spanAt? (spans ++ [last]) position ∨
      spanAt? (spans ++ [last.extend word]) position = some (last.extend word) ∧
        spanAt? (spans ++ [last]) position = some last := by
  have hplace := lt_of_mem_places (List.getElem_mem h)
  rw [spanAt?, spanAt?, places_concat_extend, List.getElem?_append_left h,
    List.getElem?_eq_getElem h, Option.bind_some, Option.bind_some]
  rw [List.length_append, List.length_singleton] at hplace
  rcases Nat.lt_succ_iff_lt_or_eq.1 hplace with hbefore | hlast
  · left
    rw [List.getElem?_append_left hbefore, List.getElem?_append_left hbefore]
  · right
    rw [hlast, List.getElem?_concat_length, List.getElem?_concat_length]
    exact ⟨rfl, rfl⟩

theorem getElem?_places_concat_extend {position : Nat}
    (h : position < (places (spans ++ [last])).length) (word : String) :
    (places (spans ++ [last.extend word]))[position]? = (places (spans ++ [last]))[position]? := by
  rw [places_concat_extend, List.getElem?_append_left h]

/-- Words that came earlier lie in a text as they did before one went on. -/
theorem liesInText_concat_extend_iff {position : Nat}
    (h : position < (places (spans ++ [last])).length) (htext : last.operand.isText = true)
    (word : String) :
    LiesInText (spans ++ [last.extend word]) position ↔ LiesInText (spans ++ [last]) position := by
  rcases spanAt?_concat_extend h word with hsame | ⟨hgrown, hlast⟩
  · rw [LiesInText, LiesInText, hsame]
  · exact iff_of_true ⟨_, hgrown, rfl⟩ ⟨_, hlast, htext⟩

theorem spanAt?_concat_extend_length (spans : List Span) (last : Span) (word : String) :
    spanAt? (spans ++ [last.extend word]) (places (spans ++ [last])).length =
      some (last.extend word) := by
  rw [spanAt?, places_concat_extend, List.getElem?_concat_length, Option.bind_some,
    List.getElem?_concat_length]

def opens (words : List String) : Bool :=
  quotesIn words % 2 == 1

theorem opens_concat (words : List String) (word : String) :
    opens (words ++ [word]) = (opens words != hasOddQuotes word) := by
  rw [opens, opens, quotesIn, quotesIn, hasOddQuotes, List.flatMap_append, List.flatMap_singleton,
    List.count_append]
  generalize (words.flatMap String.toList).count '"' = before
  generalize word.toList.count '"' = here
  rcases Nat.mod_two_eq_zero_or_one before with hbefore | hbefore <;>
    rcases Nat.mod_two_eq_zero_or_one here with hhere | hhere <;>
      simp [Nat.add_mod, hbefore, hhere]

/-- The flag that is carried from word to word says whether a quoted text is open. -/
theorem foldl_addWord (words : List String) :
    words.foldl addWord ([], false) = ((classify words).reverse, opens words) := by
  refine Prod.ext (List.reverse_reverse _).symm ?_
  induction words using List.reverseRecOn with
  | nil => rfl
  | append_singleton words word ih =>
    rw [List.foldl_append, opens_concat]
    exact congrArg (· != hasOddQuotes word) ih

theorem classify_concat (words : List String) (word : String) : classify (words ++ [word]) =
    (addWord ((classify words).reverse, opens words) word).1.reverse := by
  rw [classify, List.foldl_append, foldl_addWord]
  rfl

/-- A word that is no number joins a quoted text that is open and directly before it. -/
theorem classify_concat_join {before : List Operand} {raw : String}
    (hnumber : isNumberWord word = false) (hopen : opens words = true)
    (htext : classify words = before ++ [.text raw]) :
    classify (words ++ [word]) = before ++ [.text (raw ++ " " ++ word)] := by
  simp [classify_concat, addWord, hnumber, hopen, htext]

/-- Any other word forms an operand of its own. -/
theorem classify_concat_single (h : isNumberWord word = false → opens words = true →
      ∀ before raw, classify words ≠ before ++ [.text raw]) :
    classify (words ++ [word]) = classify words ++ [ofWord (opens words) word] := by
  rw [classify_concat]
  unfold addWord ofWord
  dsimp only
  split
  · simp
  · rename_i hnumber
    split
    · split
      · rename_i raw others hopen hreverse
        refine absurd ?_ (h (by simpa using hnumber) hopen others.reverse raw)
        rw [← List.reverse_reverse (classify words), hreverse, List.reverse_cons]
      · simp
    · split <;> simp

/-- An operand of words that grow by one was there, is formed by the word, or is a text. -/
theorem of_mem_classify_concat {operand : Operand} (h : operand ∈ classify (words ++ [word])) :
    operand ∈ classify words ∨ operand = ofWord (opens words) word ∨ operand.isText = true := by
  by_cases hjoins : isNumberWord word = false ∧ opens words = true ∧
      ∃ before raw, classify words = before ++ [.text raw]
  · obtain ⟨hnumber, hopen, before, raw, htext⟩ := hjoins
    rw [classify_concat_join hnumber hopen htext] at h
    rcases List.mem_append.1 h with hbefore | hlast
    · rw [htext]
      exact .inl (List.mem_append_left _ hbefore)
    · rw [List.mem_singleton.1 hlast]
      exact .inr (.inr rfl)
  · rw [classify_concat_single fun hnumber hopen before raw htext ↦
      hjoins ⟨hnumber, hopen, before, raw, htext⟩] at h
    rcases List.mem_append.1 h with hbefore | hlast
    · exact .inl hbefore
    · exact .inr (.inl (List.mem_singleton.1 hlast))

/-! ## The grouping of words -/

/--
Operands with the words that they cover, as they come from words. The last field says when a word
lies in the same operand as the word directly before it.
-/
structure Grouping (words : List String) (spans : List Span) : Prop where
  operands : spans.map Span.operand = classify words
  covered : spans.flatMap Span.words = words
  suits : ∀ position word, words[position]? = some word → ∃ span,
    spanAt? spans position = some span ∧ span.Suits (opens (words.take position)) word
  shared : ∀ position word, words[position + 1]? = some word →
    ((places spans)[position + 1]? = (places spans)[position]? ↔
      isNumberWord word = false ∧ opens (words.take (position + 1)) = true ∧
        LiesInText spans position)

/-- The element at the end of a list that grew by one. -/
theorem eq_of_getElem?_concat {α : Type} {before : List α} {last found : α} {position : Nat}
    (hposition : before.length ≤ position) (h : (before ++ [last])[position]? = some found) :
    position = before.length ∧ found = last := by
  rw [List.getElem?_append_right hposition, List.getElem?_singleton] at h
  split at h
  · cases h
    exact ⟨by omega, rfl⟩
  · cases h

namespace Grouping

theorem length_places (h : Grouping words spans) : (places spans).length = words.length := by
  rw [Operand.length_places, h.covered]

/-- A word that forms an operand of its own, though a text may be open before it. -/
theorem concat_single (h : Grouping words spans)
    (halone : isNumberWord word = false → opens words = true →
      ∀ before raw, classify words ≠ before ++ [.text raw]) :
    Grouping (words ++ [word]) (spans ++ [.single (ofWord (opens words) word)]) where
  operands := by
    rw [List.map_append, h.operands, classify_concat_single halone]
    rfl
  covered := by
    rw [List.flatMap_append, h.covered, List.flatMap_singleton, Span.words_single, raw_ofWord]
  suits := by
    intro position other hother
    rcases Nat.lt_or_ge position words.length with hbefore | hlast
    · rw [List.getElem?_append_left hbefore] at hother
      obtain ⟨span, hspan, hsuits⟩ := h.suits position other hother
      rw [spanAt?_concat_single (h.length_places ▸ hbefore),
        List.take_append_of_le_length hbefore.le]
      exact ⟨span, hspan, hsuits⟩
    · obtain ⟨rfl, rfl⟩ := eq_of_getElem?_concat hlast hother
      rw [← h.length_places, spanAt?_concat_single_length, h.length_places, List.take_left]
      exact ⟨_, rfl, Span.suits_ofWord _ _⟩
  shared := by
    intro position other hother
    rcases Nat.lt_or_ge (position + 1) words.length with hbefore | hlast
    · have hplace : position + 1 < (places spans).length := h.length_places ▸ hbefore
      rw [List.getElem?_append_left hbefore] at hother
      have hearlier := Nat.lt_of_succ_lt hplace
      rw [liesInText_concat_single_iff hearlier, places_concat_single,
        List.getElem?_append_left hplace, List.getElem?_append_left hearlier,
        List.take_append_of_le_length hbefore.le]
      exact h.shared position other hother
    · obtain ⟨hlength, rfl⟩ := eq_of_getElem?_concat hlast hother
      have hlength' := h.length_places.trans hlength.symm
      have hne : spans ≠ [] := by
        rintro rfl
        cases hlength'
      obtain ⟨before, last, rfl⟩ : ∃ before last, spans = before ++ [last] :=
        ⟨_, _, (List.dropLast_concat_getLast hne).symm⟩
      have hearlier : position < (places (before ++ [last])).length := by omega
      rw [liesInText_concat_single_iff hearlier, places_concat_single, ← hlength',
        List.getElem?_concat_length, List.getElem?_append_left hearlier,
        getElem?_places_concat hlength', h.length_places, List.take_left]
      refine iff_of_false (by simp) ?_
      rintro ⟨hnumber, hopen, span, hspan, htext⟩
      obtain rfl := Option.some.inj ((spanAt?_concat hlength').symm.trans hspan)
      obtain ⟨raw, hraw⟩ := isText_eq_true_iff.1 htext
      refine halone hnumber hopen (before.map Span.operand) raw ?_
      rw [← h.operands, List.map_append, ← hraw]
      rfl

/-- A word that joins the quoted text before it. -/
theorem concat_extend (h : Grouping words (spans ++ [last]))
    (hnumber : isNumberWord word = false) (hopen : opens words = true)
    (htext : last.operand.isText = true) :
    Grouping (words ++ [word]) (spans ++ [last.extend word]) where
  operands := by
    obtain ⟨raw, hraw⟩ := isText_eq_true_iff.1 htext
    have hbefore : classify words = spans.map Span.operand ++ [.text raw] := by
      rw [← h.operands, List.map_append, ← hraw]
      rfl
    rw [classify_concat_join hnumber hopen hbefore, List.map_append, List.map_singleton,
      Span.operand_extend, hraw]
    rfl
  covered := by
    rw [← congrArg (· ++ [word]) h.covered]
    simp
  suits := by
    intro position other hother
    rcases Nat.lt_or_ge position words.length with hbefore | hlast
    · rw [List.getElem?_append_left hbefore] at hother
      obtain ⟨span, hspan, hsuits⟩ := h.suits position other hother
      rw [List.take_append_of_le_length hbefore.le]
      rcases spanAt?_concat_extend (h.length_places ▸ hbefore) word with hsame | ⟨hgrown, hlast⟩
      · exact ⟨span, hsame.trans hspan, hsuits⟩
      · obtain rfl := Option.some.inj (hlast.symm.trans hspan)
        exact ⟨_, hgrown, hsuits.extend htext word⟩
    · obtain ⟨rfl, rfl⟩ := eq_of_getElem?_concat hlast hother
      rw [← h.length_places, spanAt?_concat_extend_length, h.length_places, List.take_left, hopen]
      exact ⟨_, rfl, Span.suits_extend hnumber⟩
  shared := by
    intro position other hother
    rcases Nat.lt_or_ge (position + 1) words.length with hbefore | hlast
    · have hplace : position + 1 < (places (spans ++ [last])).length := h.length_places ▸ hbefore
      have hearlier := Nat.lt_of_succ_lt hplace
      rw [List.getElem?_append_left hbefore] at hother
      rw [getElem?_places_concat_extend hplace, getElem?_places_concat_extend hearlier,
        liesInText_concat_extend_iff hearlier htext, List.take_append_of_le_length hbefore.le]
      exact h.shared position other hother
    · obtain ⟨hlength, rfl⟩ := eq_of_getElem?_concat hlast hother
      have hlength' := h.length_places.trans hlength.symm
      have hearlier : position < (places (spans ++ [last])).length := by omega
      rw [liesInText_concat_extend_iff hearlier htext, getElem?_places_concat_extend hearlier,
        getElem?_places_concat hlength', places_concat_extend, ← hlength',
        List.getElem?_concat_length, h.length_places, List.take_left]
      exact iff_of_true rfl ⟨hnumber, hopen, last, spanAt?_concat hlength', htext⟩

end Grouping

/-- Words are grouped into operands from left to right. -/
theorem exists_grouping (words : List String) : ∃ spans, Grouping words spans := by
  induction words using List.reverseRecOn with
  | nil => exact ⟨[], ⟨rfl, rfl, by simp, by simp⟩⟩
  | append_singleton words word ih =>
    obtain ⟨spans, h⟩ := ih
    by_cases hjoins : isNumberWord word = false ∧ opens words = true ∧
        ∃ before last, spans = before ++ [last] ∧ last.operand.isText = true
    · obtain ⟨hnumber, hopen, before, last, rfl, htext⟩ := hjoins
      exact ⟨_, h.concat_extend hnumber hopen htext⟩
    · refine ⟨_, h.concat_single fun hnumber hopen before raw hraw ↦ hjoins ⟨hnumber, hopen, ?_⟩⟩
      rw [← h.operands] at hraw
      obtain ⟨front, back, rfl, -, hback⟩ := List.map_eq_append_iff.1 hraw
      obtain ⟨last, rfl, hlast⟩ := List.map_eq_singleton_iff.1 hback
      exact ⟨front, last, rfl, by rw [hlast]; rfl⟩

end Operand

open Operand in
/--
Operands are the words of a statement, grouped from left to right without loss, and a formula is
read from the words as they are written.
-/
theorem groups_words (words : List String) :
    (∃ spans, Grouping words spans) ∧
      joinWords ((classify words).map raw) = joinWords words ∧
      Formula.compile (classify words) =
        if (trimBlanks (joinWords words).toList).isEmpty then .error .empty
        else
          match Expr.parse (joinWords words) with
          | .ok expr => .ok ⟨joinWords words, expr⟩
          | .error reason => .error (.invalid (joinWords words) reason) := by
  refine ⟨exists_grouping words, Formula.spell_classify words, ?_⟩
  rw [← Formula.spell_classify words]
  rfl

example : Operand.classify ["out", "\"a", "+", "1", "b\"", "\"", "c", "d"] =
    [.name "out", .text "\"a +", .number "1", .text "b\"", .text "\" c d"] := by decide

end LineScript
