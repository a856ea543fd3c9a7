import LineScript.Expr.Expr
import LineScript.Proofs.Chain
import LineScript.Proofs.Expr.Grammar
import LineScript.Proofs.Number.Shortest

/-!
# Scanning what was printed

The first characters of a text decide what its first token is: a digit or a point begins a number,
a quote a text, a letter a word, and what is none of these is a symbol. How far the token goes
depends on what follows it. After a printed value nothing follows, or a blank, or a parenthesis that
closes, and neither goes on with a number or a word. So a value that was scanned once, a number
being finite and a text having no quote, is scanned again from what it is printed as.
-/

namespace LineScript

namespace Lexeme

variable {c : Char} {text rest characters : List Char} {token : Token}

/-- Whether a character begins neither a number nor a text nor a name. -/
def isSign (c : Char) : Bool :=
  !(c.isDigit || c == '.' || isQuote c || startsName c)

theorem first?_of_isSign (hsign : isSign c = true) :
    first? (c :: rest) = (Symbol.ofStart? (c :: rest)).map fun s ↦ (.symbol s, s.text.toList) := by
  simp only [isSign, Bool.not_eq_true', Bool.or_eq_false_iff, beq_eq_false_iff_ne] at hsign
  obtain ⟨⟨⟨hdigit, hpoint⟩, hquote⟩, hname⟩ := hsign
  unfold first?
  rw [Numeral.split?_cons_eq_none hdigit hpoint]
  simp [hquote, hname]

theorem first?_of_isQuote (hquote : isQuote c = true) : first? (c :: rest) = quoted? (c :: rest) := by
  have hnumber : c.isDigit = false ∧ c ≠ '.' := by
    rcases Bool.or_eq_true_iff.1 hquote with h | h <;> rw [eq_of_beq h] <;> decide
  unfold first?
  rw [Numeral.split?_cons_eq_none hnumber.1 hnumber.2]
  simp [hquote]

theorem isDigit_of_startsName (hname : startsName c = true) : c.isDigit = false := by
  rcases Bool.or_eq_true_iff.1 hname with halpha | hunderscore
  · unfold Char.isAlpha Char.isUpper Char.isLower at halpha
    unfold Char.isDigit
    grind
  · rw [eq_of_beq hunderscore]
    rfl

theorem first?_of_startsName (hname : startsName c = true) : first? (c :: rest) =
    some (.atom (wordAtom ((c :: rest).takeWhile continuesName)),
      (c :: rest).takeWhile continuesName) := by
  have hpoint : c ≠ '.' := by
    rintro rfl
    cases hname
  have hquote : isQuote c = false := by
    by_contra hquote
    rw [Bool.not_eq_false] at hquote
    rcases Bool.or_eq_true_iff.1 hquote with h | h <;>
    · rw [eq_of_beq h] at hname
      cases hname
  unfold first?
  rw [Numeral.split?_cons_eq_none (isDigit_of_startsName hname) hpoint]
  simp [hquote, hname]

/-- What stands between tokens begins none. -/
theorem isGap_of_first? (h : first? (c :: rest) = some (token, text)) : isGap c = false := by
  by_contra hgap
  rw [Bool.not_eq_false, isGap] at hgap
  simp only [Bool.or_eq_true, beq_iff_eq] at hgap
  rcases hgap with (((rfl | rfl) | rfl) | rfl) | rfl <;>
  · rw [first?_of_isSign (by decide)] at h
    cases h

/-- A numeral is the token at the front of a text that does not go on with it. -/
theorem first?_numeral_append {numeral : Numeral} (h : numeral.WellFormed)
    (hrest : Numeral.EndsNumeral rest) : first? (numeral.text ++ rest) =
      some (.atom (.number (numeral.value.toFloat false)), numeral.text) := by
  unfold first?
  rw [h.split?_append hrest]

theorem exists_text_eq_cons (s : Symbol) :
    ∃ c others, s.text.toList = c :: others ∧ isSign c = true := by
  cases s <;> exact ⟨_, _, rfl, by decide⟩

/-- A symbol is found at the front of a text, unless an equals sign would make another one of it. -/
theorem ofStart?_append (s : Symbol) (hrest : rest.head? ≠ some '=') :
    Symbol.ofStart? (s.text.toList ++ rest) = some s := by
  cases rest with
  | nil => cases s <;> rfl
  | cons c others =>
    have hc : c ≠ '=' := fun h ↦ hrest (congrArg some h)
    cases s <;> simp [Symbol.text, Symbol.ofStart?, hc]

theorem first?_symbol_append (s : Symbol) (hrest : rest.head? ≠ some '=') :
    first? (s.text.toList ++ rest) = some (.symbol s, s.text.toList) := by
  have hstart := ofStart?_append s hrest
  obtain ⟨c, others, htext, hsign⟩ := exists_text_eq_cons s
  rw [htext] at hstart ⊢
  rw [List.cons_append] at hstart ⊢
  rw [first?_of_isSign hsign, hstart, Option.map_some, htext]

/-- Characters that scanning makes a token of. -/
inductive Spelled : Token → List Char → Prop where
  | number {numeral : Numeral} : numeral.whole ++ numeral.fractionDigits ≠ [] →
      Spelled (.atom (.number (numeral.value.toFloat false))) numeral.text
  | text (quote : Char) (body : List Char) :
      Spelled (.atom (.text (.ofList body))) (quote :: body ++ [quote])
  | word {c : Char} {others : List Char} : startsName c = true →
      (∀ other ∈ others, continuesName other = true) →
      Spelled (.atom (wordAtom (c :: others))) (c :: others)
  | symbol (s : Symbol) : Spelled (.symbol s) s.text.toList

theorem continuesName_of_startsName (hname : startsName c = true) : continuesName c = true := by
  unfold continuesName Char.isAlphanum
  rw [Bool.or_assoc, Bool.or_comm c.isDigit, ← Bool.or_assoc]
  exact Bool.or_eq_true_iff.2 (.inl hname)

/-- The token at the front of a text is spelled by its characters. -/
theorem spelled_of_first? (h : first? text = some (token, characters)) :
    Spelled token characters := by
  unfold first? at h
  split at h
  · rename_i hsplit
    cases h
    exact .number (Numeral.of_split? hsplit).1.digits_ne_nil
  · cases text with
    | nil => cases h
    | cons c others =>
      split at h
      · unfold quoted? at h
        dsimp only at h
        split at h
        · cases h
          exact .text c _
        · cases h
      · split at h
        · rename_i hname
          cases h
          rw [List.takeWhile_cons_of_pos (continuesName_of_startsName hname)]
          exact .word hname fun other hother ↦ List.mem_takeWhile_imp hother
        · obtain ⟨s, -, hs⟩ := Option.map_eq_some_iff.1 h
          cases hs
          exact .symbol s

theorem Spelled.ne_nil (h : Spelled token characters) : characters ≠ [] := by
  cases h with
  | @number numeral hdigits =>
    intro hnil
    obtain ⟨hnumber, -⟩ := List.append_eq_nil_iff.1 hnil
    obtain ⟨hwhole, hpoint⟩ := List.append_eq_nil_iff.1 hnumber
    apply hdigits
    cases hfraction : numeral.fraction with
    | none => rw [hwhole, Numeral.fractionDigits, hfraction]; rfl
    | some digits => rw [hfraction] at hpoint; cases hpoint
  | text => exact List.cons_ne_nil _ _
  | word => exact List.cons_ne_nil _ _
  | symbol s =>
    obtain ⟨c, others, htext, -⟩ := exists_text_eq_cons s
    rw [htext]
    exact List.cons_ne_nil _ _

end Lexeme

open Lexeme

/-- Finite numbers, texts without a double quote, and all words. -/
def Atom.Plain : Atom → Prop
  | number value => value.isFinite = true
  | text value => '"' ∉ value.toList
  | bool _ => True
  | name _ => True

instance : DecidablePred Atom.Plain
  | .number value => inferInstanceAs (Decidable (value.isFinite = true))
  | .text value => inferInstanceAs (Decidable ('"' ∉ value.toList))
  | .bool _ => .isTrue trivial
  | .name _ => .isTrue trivial

/-- What follows a printed value: nothing, a blank, or a parenthesis that closes. -/
def EndsValue (rest : List Char) : Prop :=
  ∀ c, rest.head? = some c → c = ' ' ∨ c = ')'

variable {a : Atom} {text rest characters : List Char}

theorem endsValue_cons {c : Char} (h : c = ' ' ∨ c = ')') : EndsValue (c :: rest) := by
  intro other hother
  cases hother
  exact h

theorem EndsValue.head?_ne_equals (h : EndsValue rest) : rest.head? ≠ some '=' := by
  intro hequals
  rcases h '=' hequals with hother | hother <;> exact absurd hother (by decide)

theorem EndsValue.endsNumeral (h : EndsValue rest) : Numeral.EndsNumeral rest := by
  intro c hc
  rcases h c hc with rfl | rfl <;> decide

theorem EndsValue.takeWhile_continuesName (h : EndsValue rest) {word : List Char}
    (hword : ∀ c ∈ word, continuesName c = true) :
    (word ++ rest).takeWhile continuesName = word := by
  rw [List.takeWhile_append_of_pos hword]
  cases rest with
  | nil => simp
  | cons c others => rcases h c rfl with rfl | rfl <;> simp [continuesName]

theorem render_wordAtom (word : List Char) : (wordAtom word).render.toList = word := by
  unfold wordAtom
  split
  · rename_i hword
    exact hword.symm
  · split
    · rename_i hword
      exact hword.symm
    · exact String.toList_ofList

/-- A text without a quote ends where the quote comes. -/
theorem takeWhile_bne_append {quote : Char} {body : List Char} (hbody : quote ∉ body)
    (rest : List Char) : (body ++ quote :: rest).takeWhile (· != quote) = body := by
  rw [List.takeWhile_append_of_pos, List.takeWhile_cons_of_neg (by simp), List.append_nil]
  intro c hc
  rw [bne_iff_ne]
  rintro rfl
  exact hbody hc

/-- Between two quotes there is a text, which the quote is not in. -/
theorem quoted?_append {quote : Char} {body : List Char} (hquote : isQuote quote = true)
    (hbody : quote ∉ body) (rest : List Char) : quoted? (quote :: (body ++ quote :: rest)) =
      some (.atom (.text (.ofList body)), quote :: body ++ [quote]) := by
  unfold quoted?
  dsimp only
  rw [takeWhile_bne_append hbody, if_pos (by simp [hquote])]

theorem first?_text_append {quote : Char} {body : List Char} (hquote : isQuote quote = true)
    (hbody : quote ∉ body) (rest : List Char) : first? (quote :: body ++ [quote] ++ rest) =
      some (.atom (.text (.ofList body)), quote :: body ++ [quote]) := by
  rw [List.append_assoc, List.singleton_append, List.cons_append, first?_of_isQuote hquote,
    quoted?_append hquote hbody]

/-- Characters of a name are a token where no other follows. -/
theorem first?_word_append {c : Char} {others : List Char} (hname : startsName c = true)
    (hcontinues : ∀ other ∈ others, continuesName other = true) (hrest : EndsValue rest) :
    first? (c :: others ++ rest) = some (.atom (wordAtom (c :: others)), c :: others) := by
  have hword : ∀ other ∈ c :: others, continuesName other = true :=
    List.forall_mem_cons.2 ⟨continuesName_of_startsName hname, hcontinues⟩
  have htake := hrest.takeWhile_continuesName hword
  rw [List.cons_append] at htake ⊢
  rw [first?_of_startsName hname, htake]

/-- What a value is printed as is scanned as the value. -/
theorem first?_render_append (h : Spelled (.atom a) characters) (hplain : a.Plain)
    (hrest : EndsValue rest) :
    first? (a.render.toList ++ rest) = some (.atom a, a.render.toList) := by
  cases h with
  | number =>
    obtain ⟨mantissa, exponent, hdecode⟩ := Decimal.exists_decode_toFloat hplain
    obtain ⟨numeral, hsplit, htext, hvalue⟩ :=
      Shortest.exists_split?_render hdecode hrest.endsNumeral
    unfold first?
    rw [Atom.render, hsplit]
    dsimp only
    rw [htext, hvalue]
  | text quote body =>
    have hbody : '"' ∉ body := by
      rw [← @String.toList_ofList body]
      exact hplain
    have htext : (Atom.text (.ofList body)).render.toList = '"' :: body ++ ['"'] := by
      simp [Atom.render]
    rw [htext, first?_text_append (by decide) hbody]
  | word hname hcontinues =>
    rw [render_wordAtom]
    exact first?_word_append hname hcontinues hrest

/-- A text is scanned as tokens, wherever it starts. -/
def ScansTo (text : List Char) (word : List Token) : Prop :=
  ∀ offset, ∃ scan, scanFrom offset 0 text = .ok scan ∧ scan.tokens = word

variable {token : Token} {word : List Token}

theorem scansTo_nil : ScansTo [] [] :=
  fun offset ↦ ⟨⟨[], offset⟩, rfl, rfl⟩

theorem ScansTo.blank (h : ScansTo text word) : ScansTo (' ' :: text) word :=
  fun offset ↦ h (offset + ' '.utf8Size)

/-- The characters that belong to the token before are passed over. -/
theorem scanFrom_append (offset : Nat) (passed rest : List Char) :
    scanFrom offset passed.length (passed ++ rest) =
      scanFrom (offset + String.utf8Len passed) 0 rest := by
  induction passed generalizing offset with
  | nil => rfl
  | cons c others ih =>
    rw [String.utf8Len_cons, Nat.add_comm _ c.utf8Size, ← Nat.add_assoc]
    exact ih (offset + c.utf8Size)

/-- The token at the front of a text comes before those of the rest. -/
theorem scanFrom_first (hfirst : first? (characters ++ rest) = some (token, characters))
    (offset : Nat) : scanFrom offset 0 (characters ++ rest) =
      (scanFrom (offset + String.utf8Len characters) 0 rest).map fun after ↦
        ⟨⟨token, characters, offset⟩ :: after.lexemes, after.stop⟩ := by
  cases characters with
  | nil => exact absurd rfl (spelled_of_first? hfirst).ne_nil
  | cons c others =>
    rw [List.cons_append] at hfirst ⊢
    rw [scanFrom, if_neg (by simp [isGap_of_first? hfirst]), hfirst]
    dsimp only
    rw [List.length_cons, Nat.add_sub_cancel, scanFrom_append, Nat.add_assoc,
      Nat.add_comm c.utf8Size, ← String.utf8Len_cons]
    cases scanFrom (offset + String.utf8Len (c :: others)) 0 rest <;> rfl

theorem ScansTo.first (h : ScansTo rest word)
    (hfirst : first? (characters ++ rest) = some (token, characters)) :
    ScansTo (characters ++ rest) (token :: word) := by
  intro offset
  obtain ⟨scan, hscan, htokens⟩ := h (offset + String.utf8Len characters)
  refine ⟨⟨⟨token, characters, offset⟩ :: scan.lexemes, scan.stop⟩, ?_, ?_⟩
  · rw [scanFrom_first hfirst, hscan]
    rfl
  · rw [← htokens]
    rfl

/-- Every token of a text is spelled by its characters. -/
theorem spelled_of_scanFrom {offset skip : Nat} {scan : Scan}
    (h : scanFrom offset skip text = .ok scan) :
    ∀ lexeme ∈ scan.lexemes, Spelled lexeme.token lexeme.text := by
  induction text generalizing offset skip scan with
  | nil =>
    cases h
    exact List.forall_mem_nil _
  | cons c others ih =>
    cases skip with
    | succ passed => exact ih h
    | zero =>
      rw [scanFrom] at h
      split at h
      · exact ih h
      · split at h
        · rename_i hfirst
          obtain ⟨after, hafter, hscan⟩ := Chain.bind_eq_ok_iff.1 h
          cases hscan
          exact List.forall_mem_cons.2 ⟨spelled_of_first? hfirst, ih hafter⟩
        · split at h <;> cases h

end LineScript
