import LineScript.Proofs.Expr.Grammar
import LineScript.Proofs.Expr.LongestToken
import LineScript.Text.Words

/-!
# Tokens tile a text

Nothing of a text is lost when it is scanned: its tokens stand side by side in it, in order, each as
long as it can be, with white space before, between and behind them and nothing else. So the tokens
alone, with a blank between neighbours, are a text that is scanned alike. A text that is not scanned
is tiled in the same way up to the first character that is no white space and that no token begins
with.
-/

namespace LineScript

open Lexeme

variable {offset stop : Nat} {c : Char} {token : Token} {lexeme : Lexeme} {lexemes : List Lexeme}
  {text rest characters : List Char}

/-- A text, from a byte on, is tiled by tokens up to a byte where the rest begins. -/
inductive Tiled (stop : Nat) (rest : List Char) : Nat → List Char → List Lexeme → Prop where
  | done : Tiled stop rest stop rest []
  | gap {offset : Nat} {c : Char} {text : List Char} {lexemes : List Lexeme} : isGap c = true →
      Tiled stop rest (offset + c.utf8Size) text lexemes →
      Tiled stop rest offset (c :: text) lexemes
  | token {offset : Nat} {token : Token} {characters text : List Char} {lexemes : List Lexeme} :
      IsToken token characters → Longest characters text →
      Tiled stop rest (offset + String.utf8Len characters) text lexemes →
      Tiled stop rest offset (characters ++ text) (⟨token, characters, offset⟩ :: lexemes)

namespace Tiled

/-- What is tiled is the start of a text, and ends where the rest begins. -/
theorem exists_start (h : Tiled stop rest offset text lexemes) :
    ∃ start, text = start ++ rest ∧ stop = offset + String.utf8Len start := by
  induction h with
  | done => exact ⟨[], rfl, rfl⟩
  | @gap offset c _ _ _ _ ih =>
    obtain ⟨start, rfl, rfl⟩ := ih
    exact ⟨c :: start, rfl, by rw [String.utf8Len_cons]; omega⟩
  | @token offset _ characters _ _ _ _ _ ih =>
    obtain ⟨start, rfl, rfl⟩ := ih
    refine ⟨characters ++ start, (List.append_assoc _ _ _).symm, ?_⟩
    rw [String.utf8Len_append]
    omega

/-- Each token is one by itself. -/
theorem isToken (h : Tiled stop rest offset text lexemes) :
    ∀ lexeme ∈ lexemes, IsToken lexeme.token lexeme.text := by
  induction h with
  | done => exact List.forall_mem_nil _
  | gap _ _ ih => exact ih
  | token htoken _ _ ih => exact List.forall_mem_cons.2 ⟨htoken, ih⟩

/-- The characters of a token stand where it starts. -/
theorem exists_before (h : Tiled stop rest offset text lexemes) (hmem : lexeme ∈ lexemes) :
    ∃ before after, text = before ++ (lexeme.text ++ after) ∧
      lexeme.offset = offset + String.utf8Len before := by
  induction h with
  | done => cases hmem
  | @gap offset c _ _ _ _ ih =>
    obtain ⟨before, after, rfl, hoffset⟩ := ih hmem
    exact ⟨c :: before, after, rfl, by rw [hoffset, String.utf8Len_cons]; omega⟩
  | @token offset _ characters text _ _ _ _ ih =>
    rcases List.mem_cons.1 hmem with rfl | hlater
    · exact ⟨[], text, rfl, rfl⟩
    · obtain ⟨before, after, rfl, hoffset⟩ := ih hlater
      refine ⟨characters ++ before, after, (List.append_assoc _ _ _).symm, ?_⟩
      rw [hoffset, String.utf8Len_append]
      omega

theorem le_offset (h : Tiled stop rest offset text lexemes) :
    ∀ start ∈ lexemes.map Lexeme.offset ++ [stop], offset ≤ start := by
  intro start hstart
  rcases List.mem_append.1 hstart with hmem | hlast
  · obtain ⟨lexeme, hlexeme, rfl⟩ := List.mem_map.1 hmem
    obtain ⟨before, _, -, hoffset⟩ := h.exists_before hlexeme
    omega
  · obtain ⟨_, -, hstop⟩ := h.exists_start
    rw [List.mem_singleton.1 hlast]
    omega

/-- Tokens start one after the other, and before the rest. -/
theorem ascending (h : Tiled stop rest offset text lexemes) :
    (lexemes.map Lexeme.offset ++ [stop]).Pairwise (· < ·) := by
  induction h with
  | done => exact List.pairwise_singleton _ _
  | gap _ _ ih => exact ih
  | token htoken _ hlater ih =>
    have hpos := Nat.pos_of_ne_zero (mt String.utf8Len_eq_zero.1 htoken.spelled.ne_nil)
    rw [List.map_cons, List.cons_append, List.pairwise_cons]
    refine ⟨fun start hstart ↦ ?_, ih⟩
    have hle := hlater.le_offset start hstart
    dsimp only
    omega

end Tiled

theorem scanFrom_gap (hgap : isGap c = true) (offset : Nat) (rest : List Char) :
    scanFrom offset 0 (c :: rest) = scanFrom (offset + c.utf8Size) 0 rest := by
  rw [scanFrom, if_pos hgap]

/-- Why no token begins with a character. -/
def refusal (c : Char) (offset : Nat) : ParseError :=
  if isQuote c then .unterminatedText offset else .unexpectedChar c offset

theorem scanFrom_refused (hgap : isGap c = false) (hnone : first? (c :: rest) = none)
    (offset : Nat) : scanFrom offset 0 (c :: rest) = .error (refusal c offset) := by
  rw [scanFrom, if_neg (by simp [hgap]), hnone, refusal]
  dsimp only
  split <;> rfl

/-- A text has been scanned, or white space or a token is at its front and scanning goes on behind
that, or neither is and scanning fails. -/
theorem scan_induction {motive : Nat → List Char → Prop} (nil : ∀ offset, motive offset [])
    (gap : ∀ offset c rest, isGap c = true → motive (offset + c.utf8Size) rest →
      motive offset (c :: rest))
    (token : ∀ offset token characters rest,
      first? (characters ++ rest) = some (token, characters) →
      motive (offset + String.utf8Len characters) rest → motive offset (characters ++ rest))
    (refused : ∀ offset c rest, isGap c = false → first? (c :: rest) = none →
      motive offset (c :: rest))
    (offset : Nat) (text : List Char) : motive offset text := by
  induction hlength : text.length using Nat.strong_induction_on generalizing offset text with
  | _ length ih =>
    cases text with
    | nil => exact nil offset
    | cons c others =>
      by_cases hgap : isGap c = true
      · exact gap offset c others hgap (ih _ (by rw [← hlength]; simp) _ _ rfl)
      · rw [Bool.not_eq_true] at hgap
        cases hfirst : first? (c :: others) with
        | none => exact refused offset c others hgap hfirst
        | some found =>
          obtain ⟨found, characters⟩ := found
          obtain ⟨htoken, rest, hrest⟩ := isToken_of_first? hfirst
          rw [← hrest] at hfirst hlength ⊢
          have hpos := List.length_pos_iff.2 htoken.spelled.ne_nil
          rw [List.length_append] at hlength
          exact token offset found characters rest hfirst (ih _ (by omega) _ _ rfl)

/-- The tokens that a text is scanned as tile it. -/
theorem tiled_of_scanFrom {found : Scan} (h : scanFrom offset 0 text = .ok found) :
    Tiled found.stop [] offset text found.lexemes := by
  induction offset, text using scan_induction generalizing found with
  | nil offset =>
    cases h
    exact .done
  | gap offset c rest hgap ih =>
    rw [scanFrom_gap hgap] at h
    exact .gap hgap (ih h)
  | token offset token characters rest hfirst ih =>
    rw [scanFrom_first hfirst] at h
    obtain ⟨after, hafter, rfl⟩ := Chain.map_eq_ok_iff.1 h
    exact .token (isToken_of_first? hfirst).1 (longest_of_first? hfirst) (ih hafter)
  | refused offset c rest hgap hnone =>
    rw [scanFrom_refused hgap hnone] at h
    cases h

/-- No token begins with a character of a text, and it may not stand between tokens. -/
structure Stuck (c : Char) (rest : List Char) : Prop where
  isGap : isGap c = false
  not_isToken : ∀ token characters, IsToken token characters → ¬ characters <+: c :: rest
  unclosed : isQuote c = true → c ∉ rest

theorem stuck_of_first? (hgap : isGap c = false) (hnone : first? (c :: rest) = none) :
    Stuck c rest where
  isGap := hgap
  not_isToken _ _ := not_isToken_of_first? hnone
  unclosed hquote hmem := by
    obtain ⟨body, after, rfl, hbody⟩ := List.eq_append_cons_of_mem hmem
    refine not_isToken_of_first? hnone (.text hquote hbody) ⟨after, ?_⟩
    simp

/-- A text that is not scanned is tiled up to where the fault is. -/
theorem tiled_of_scanFrom_error {reason : ParseError} (h : scanFrom offset 0 text = .error reason) :
    ∃ stop c rest lexemes, Tiled stop (c :: rest) offset text lexemes ∧ Stuck c rest ∧
      reason = refusal c stop := by
  induction offset, text using scan_induction with
  | nil offset => cases h
  | gap offset c rest hgap ih =>
    rw [scanFrom_gap hgap] at h
    obtain ⟨stop, d, after, lexemes, htiled, hstuck⟩ := ih h
    exact ⟨stop, d, after, lexemes, .gap hgap htiled, hstuck⟩
  | token offset token characters rest hfirst ih =>
    rw [scanFrom_first hfirst] at h
    have hrest : scanFrom (offset + String.utf8Len characters) 0 rest = .error reason := by
      cases hscan : scanFrom (offset + String.utf8Len characters) 0 rest with
      | ok after =>
        rw [hscan] at h
        cases h
      | error other =>
        rw [hscan] at h
        exact h
    obtain ⟨stop, d, after, lexemes, htiled, hstuck⟩ := ih hrest
    exact ⟨stop, d, after, _,
      .token (isToken_of_first? hfirst).1 (longest_of_first? hfirst) htiled, hstuck⟩
  | refused offset c rest hgap hnone =>
    rw [scanFrom_refused hgap hnone] at h
    cases h
    exact ⟨offset, c, rest, [], .done, stuck_of_first? hgap hnone, rfl⟩

/-- The tokens of a text, with a blank between neighbours. -/
def Scan.respelled (found : Scan) : String :=
  joinWords (found.lexemes.map fun lexeme ↦ .ofList lexeme.text)

theorem scansTo_joinWords (h : ∀ lexeme ∈ lexemes, IsToken lexeme.token lexeme.text) :
    ScansTo (joinWords (lexemes.map fun lexeme ↦ .ofList lexeme.text)).toList
      (lexemes.map Lexeme.token) := by
  induction lexemes with
  | nil => exact scansTo_nil
  | cons lexeme others ih =>
    obtain ⟨hfirst, hothers⟩ := List.forall_mem_cons.1 h
    cases others with
    | nil =>
      have hscan := scansTo_nil.first (hfirst.first?_append fun c hc ↦ by cases hc)
      rw [List.append_nil] at hscan
      rw [List.map_singleton, joinWords, String.intercalate_singleton, String.toList_ofList]
      exact hscan
    | cons next later =>
      have hscan := (ih hothers).blank.first (hfirst.first?_append (endsValue_cons (.inl rfl)))
      rw [List.map_cons, List.map_cons, joinWords, String.intercalate_cons_cons,
        String.toList_append, String.toList_append, String.toList_ofList, List.append_assoc]
      exact hscan

end LineScript
