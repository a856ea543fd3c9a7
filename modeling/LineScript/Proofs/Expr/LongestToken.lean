import LineScript.Proofs.Expr.Scanning

/-!
# The longest token

What characters are a token is told without looking at what stands around them: a numeral, a text
between two quotes that it does not contain, a run of name characters that begins like a name, or a
symbol. At the front of a text several of them may be found, one longer than the other. The scanner
takes the longest one, of whatever sort, and fails to find a token only where there is none.
-/

namespace LineScript.Lexeme

variable {c : Char} {token : Token} {text rest characters longer : List Char}

/-- Characters that are a token by themselves. -/
inductive IsToken : Token → List Char → Prop where
  | number {numeral : Numeral} : numeral.WellFormed →
      IsToken (.atom (.number (numeral.value.toFloat false))) numeral.text
  | text {quote : Char} {body : List Char} : isQuote quote = true → quote ∉ body →
      IsToken (.atom (.text (.ofList body))) (quote :: body ++ [quote])
  | word {c : Char} {others : List Char} : startsName c = true →
      (∀ other ∈ others, continuesName other = true) →
      IsToken (.atom (wordAtom (c :: others))) (c :: others)
  | symbol (s : Symbol) : IsToken (.symbol s) s.text.toList

theorem IsToken.spelled (h : IsToken token characters) : Spelled token characters := by
  cases h with
  | number hnumeral => exact .number hnumeral.digits_ne_nil
  | text => exact .text _ _
  | word hname hcontinues => exact .word hname hcontinues
  | symbol s => exact .symbol s

theorem isToken_of_quoted? (hquote : isQuote c = true)
    (h : quoted? (c :: text) = some (token, characters)) :
    IsToken token characters ∧ characters <+: c :: text := by
  unfold quoted? at h
  dsimp only at h
  split at h
  · rename_i hclosed
    cases h
    refine ⟨.text hquote fun hmem ↦ ?_, ?_⟩
    · simpa using List.mem_takeWhile_imp hmem
    · have hmem : c ∈ text := by simpa [hquote] using hclosed
      have hstop := List.head?_dropWhile_not (· != c) text
      cases hrest : text.dropWhile (· != c) with
      | nil => exact absurd (List.dropWhile_eq_nil_iff.1 hrest c hmem) (by simp)
      | cons closing after =>
        rw [hrest] at hstop
        obtain rfl : closing = c := by simpa using hstop
        have hsplit := List.takeWhile_append_dropWhile (p := (· != closing)) (l := text)
        rw [hrest] at hsplit
        refine ⟨after, ?_⟩
        rw [List.append_assoc, List.singleton_append, List.cons_append, hsplit]
  · cases h

theorem prefix_of_ofStart? {s : Symbol} (h : Symbol.ofStart? text = some s) :
    s.text.toList <+: text := by
  unfold Symbol.ofStart? at h
  split at h <;> cases h <;> simp [Symbol.text]

/-- What is found at the front of a text is a token, and stands there. -/
theorem isToken_of_first? (h : first? text = some (token, characters)) :
    IsToken token characters ∧ characters <+: text := by
  unfold first? at h
  split at h
  · rename_i hsplit
    cases h
    obtain ⟨hnumeral, htext⟩ := Numeral.of_split? hsplit
    exact ⟨.number hnumeral, _, htext.symm⟩
  · cases text with
    | nil => cases h
    | cons c others =>
      split at h
      · rename_i hquote
        exact isToken_of_quoted? hquote h
      · split at h
        · rename_i hname
          cases h
          refine ⟨?_, List.takeWhile_prefix _⟩
          rw [List.takeWhile_cons_of_pos (continuesName_of_startsName hname)]
          exact .word hname fun other hother ↦ List.mem_takeWhile_imp hother
        · obtain ⟨s, hstart, hs⟩ := Option.map_eq_some_iff.1 h
          cases hs
          exact ⟨.symbol s, prefix_of_ofStart? hstart⟩

/-- Where a symbol stands, it or a longer one is found. -/
theorem exists_ofStart? (s : Symbol) (rest : List Char) :
    ∃ found, Symbol.ofStart? (s.text.toList ++ rest) = some found ∧
      s.text.toList.length ≤ found.text.toList.length := by
  by_cases hequals : rest.head? = some '='
  · obtain ⟨others, rfl⟩ : ∃ others, rest = '=' :: others := by
      cases rest with
      | nil => cases hequals
      | cons c others => exact ⟨others, by rw [Option.some.inj hequals]⟩
    cases s <;> exact ⟨_, rfl, by decide⟩
  · exact ⟨s, ofStart?_append s hequals, Nat.le_refl _⟩

/-- Which symbol is found depends on nothing but which symbols a text starts with. -/
theorem ofStart?_congr (h : ∀ s : Symbol, s.text.toList <+: text ↔ s.text.toList <+: rest) :
    Symbol.ofStart? text = Symbol.ofStart? rest := by
  have hlonger : ∀ {text : List Char} {s : Symbol}, s.text.toList <+: text →
      ∃ found, Symbol.ofStart? text = some found ∧
        s.text.toList.length ≤ found.text.toList.length := by
    rintro text s ⟨after, rfl⟩
    exact exists_ofStart? s after
  cases hstart : Symbol.ofStart? rest with
  | none =>
    rw [Option.eq_none_iff_forall_ne_some]
    intro s hs
    obtain ⟨found, hfound, -⟩ := hlonger ((h s).1 (prefix_of_ofStart? hs))
    rw [hstart] at hfound
    cases hfound
  | some s =>
    obtain ⟨found, hfound, hle⟩ := hlonger ((h s).2 (prefix_of_ofStart? hstart))
    obtain ⟨again, hagain, hge⟩ := hlonger ((h found).1 (prefix_of_ofStart? hfound))
    rw [hstart] at hagain
    cases hagain
    have hshared : s.text.toList <+: found.text.toList :=
      List.prefix_of_prefix_length_le ((h s).2 (prefix_of_ofStart? hstart))
        (prefix_of_ofStart? hfound) hle
    have htext := hshared.eq_of_length (Nat.le_antisymm hle hge)
    have hsame := ofStart?_append s (by decide : ([] : List Char).head? ≠ some '=')
    rw [htext, ofStart?_append found (by decide)] at hsame
    rw [hfound, Option.some.inj hsame]

/-- Where a token stands, it or a longer one is found. -/
theorem IsToken.exists_first? (h : IsToken token characters) (rest : List Char) :
    ∃ found longer, first? (characters ++ rest) = some (found, longer) ∧
      characters.length ≤ longer.length := by
  cases h with
  | number hnumeral =>
    obtain ⟨longest, after, hsplit, hlength⟩ := hnumeral.exists_split? rest
    refine ⟨.atom (.number (longest.value.toFloat false)), longest.text, ?_, hlength⟩
    rw [first?, hsplit]
  | text hquote hbody => exact ⟨_, _, first?_text_append hquote hbody rest, Nat.le_refl _⟩
  | @word c others hname hcontinues =>
    refine ⟨_, _, first?_of_startsName hname, ?_⟩
    have hword : ∀ other ∈ c :: others, continuesName other = true :=
      List.forall_mem_cons.2 ⟨continuesName_of_startsName hname, hcontinues⟩
    change _ ≤ ((c :: others ++ rest).takeWhile continuesName).length
    rw [List.takeWhile_append_of_pos hword, List.length_append]
    exact Nat.le_add_right _ _
  | symbol s =>
    obtain ⟨found, hfound, hlength⟩ := exists_ofStart? s rest
    refine ⟨.symbol found, _, ?_, hlength⟩
    obtain ⟨c, others, htext, hsign⟩ := exists_text_eq_cons s
    rw [htext, List.cons_append] at hfound ⊢
    rw [first?_of_isSign hsign, hfound]
    rfl

/-- No longer part of the text from here on is a token. -/
def Longest (characters rest : List Char) : Prop :=
  ∀ token longer, IsToken token longer → longer <+: characters ++ rest →
    longer.length ≤ characters.length

/-- The longest token at the front of a text is found. -/
theorem longest_of_first? (h : first? (characters ++ rest) = some (token, characters)) :
    Longest characters rest := by
  rintro other longer htoken ⟨after, hafter⟩
  obtain ⟨found, longest, hfound, hlength⟩ := htoken.exists_first? after
  rw [hafter, h] at hfound
  cases hfound
  exact hlength

/-- Where no token is found, there is none. -/
theorem not_isToken_of_first? (h : first? text = none) (htoken : IsToken token characters) :
    ¬ characters <+: text := by
  rintro ⟨after, rfl⟩
  obtain ⟨found, longest, hfound, -⟩ := htoken.exists_first? after
  rw [h] at hfound
  cases hfound

/-- A token is found again where a blank or nothing follows it. -/
theorem IsToken.first?_append (h : IsToken token characters) (hrest : EndsValue rest) :
    first? (characters ++ rest) = some (token, characters) := by
  cases h with
  | number hnumeral => exact first?_numeral_append hnumeral hrest.endsNumeral
  | text hquote hbody => exact first?_text_append hquote hbody rest
  | word hname hcontinues => exact first?_word_append hname hcontinues hrest
  | symbol s => exact first?_symbol_append s hrest.head?_ne_equals

end LineScript.Lexeme
