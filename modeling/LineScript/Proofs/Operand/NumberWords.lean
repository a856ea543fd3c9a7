import LineScript.Formula
import LineScript.Proofs.Expr.Evaluation
import LineScript.Proofs.Expr.Parsing
import LineScript.Proofs.Expr.Scanning
import LineScript.Proofs.Text.Words

/-!
# Numbers as words and in expressions

Two readers decide what a number is. A word of a statement is a number if the whole of it is read as
one and there is a digit in it. In an expression, the characters that go on with a number are cut
off first, one kind after the other, and are read then. What is cut off can always be read, and is a
word that is a number; a word that is a number is cut off whole, except for its sign. A minus sign
is an operator there and changes nothing, while a plus sign is nothing that an expression starts
with.
-/

namespace LineScript

variable {text rest : List Char} {word : String}

/-- A word is a number if it is a numeral, perhaps behind a sign. -/
theorem isNumberWord_iff : isNumberWord word = true ↔ ∃ sign numeral, IsSign sign ∧
    numeral.WellFormed ∧ word.toList = sign ++ Numeral.text numeral := by
  rw [isNumberWord, readNumber?, Bool.and_eq_true, Numeral.isSome_readFloat?_iff, List.any_eq_true]
  constructor
  · rintro ⟨⟨c, hc, hdigit⟩, htext⟩
    generalize word.toList = text at hc htext
    cases htext with
    | numeral hsign hnumeral => exact ⟨_, _, hsign, hnumeral, rfl⟩
    | @named sign name hsign hname =>
      rcases List.mem_append.1 hc with hc | hc
      · rw [hsign.isDigit c hc] at hdigit
        cases hdigit
      · rw [Numeral.isDigit_of_named hname c hc] at hdigit
        cases hdigit
  · rintro ⟨sign, numeral, hsign, hnumeral, htext⟩
    obtain ⟨c, hc, hdigit⟩ := hnumeral.exists_mem_text
    rw [htext]
    exact ⟨⟨c, List.mem_append_right _ hc, hdigit⟩, .numeral hsign hnumeral⟩

/-- There are no quotation marks in a number. -/
theorem not_mem_of_isNumberWord (h : isNumberWord word = true) : '"' ∉ word.toList := by
  obtain ⟨sign, numeral, hsign, hnumeral, hword⟩ := isNumberWord_iff.1 h
  intro hquote
  rw [hword] at hquote
  rcases List.mem_append.1 hquote with hquote | hquote
  · rcases hsign with rfl | rfl | rfl <;> exact absurd hquote (by decide)
  · exact absurd (hnumeral.mem_text hquote) (by decide)

namespace Lexeme

/-- Whether a text starts as numbers do: with a digit, or with a point and a digit. -/
def startsNumber : List Char → Bool
  | [] => false
  | c :: rest => c.isDigit || (c == '.' && rest.head?.any Char.isDigit)

def cutFraction : List Char → List Char
  | '.' :: rest => '.' :: rest.takeWhile Char.isDigit
  | _ => []

/-- The number of characters at the front of a text that are a sign. -/
def signLength (text : List Char) : Nat :=
  if text.head?.any (fun c ↦ c == '+' || c == '-') then 1 else 0

/-- An exponent at the front of a text; a mark is left where no digit follows it or its sign. -/
def cutExponent : List Char → List Char
  | [] => []
  | mark :: rest =>
    let signs := signLength rest
    if (mark == 'e' || mark == 'E') && rest[signs]?.any Char.isDigit then
      mark :: (rest.take signs ++ (rest.drop signs).takeWhile Char.isDigit)
    else []

/-- The characters at the front of a text that go on with a number. -/
def cutNumber (text : List Char) : List Char :=
  let whole := text.takeWhile Char.isDigit
  let fraction := cutFraction (text.drop whole.length)
  whole ++ fraction ++ cutExponent (text.drop (whole.length + fraction.length))

theorem isEmpty_takeWhile (text : List Char) :
    (text.takeWhile Char.isDigit).isEmpty = !text.head?.any Char.isDigit := by
  cases text with
  | nil => rfl
  | cons c others =>
    rw [List.takeWhile_cons]
    cases hc : c.isDigit <;> simp [hc]

theorem cutFraction_eq (text : List Char) :
    cutFraction text = ((Numeral.splitFraction text).1.map ('.' :: ·)).getD [] := by
  unfold cutFraction Numeral.splitFraction
  split <;> simp

theorem splitSign_eq (text : List Char) : ExponentPart.splitSign text =
    (text.take (signLength text), text.drop (signLength text)) := by
  unfold ExponentPart.splitSign
  split
  · simp [signLength]
  · simp [signLength]
  · rename_i hminus hplus
    have hnone : signLength text = 0 := by
      cases text with
      | nil => rfl
      | cons c others =>
        refine if_neg ?_
        simp only [List.head?_cons, Option.any_some, Bool.or_eq_true, beq_iff_eq, not_or]
        exact ⟨fun hc ↦ hplus others (by rw [hc]), fun hc ↦ hminus others (by rw [hc])⟩
    rw [hnone, List.take_zero, List.drop_zero]

theorem cutExponent_eq (text : List Char) :
    cutExponent text = ((Numeral.splitExponent text).1.map ExponentPart.text).getD [] := by
  cases text with
  | nil => rfl
  | cons mark afterMark =>
    unfold cutExponent Numeral.splitExponent ExponentPart.split?
    dsimp only
    rw [splitSign_eq]
    dsimp only
    generalize signLength afterMark = signs
    have hdigits : afterMark[signs]?.any Char.isDigit =
        !((afterMark.drop signs).takeWhile Char.isDigit).isEmpty := by
      rw [isEmpty_takeWhile, List.head?_drop, Bool.not_not]
    rw [hdigits]
    split <;> rfl

theorem drop_cutFraction (text : List Char) :
    text.drop (cutFraction text).length = (Numeral.splitFraction text).2 := by
  rw [cutFraction_eq]
  nth_rewrite 2 [← Numeral.splitFraction_append text]
  rw [List.drop_left]

/-- The characters that are cut off are the numeral that is split off. -/
theorem cutNumber_eq {numeral : Numeral} (h : Numeral.split? text = some (numeral, rest)) :
    cutNumber text = numeral.text := by
  have hwhole : text.drop (text.takeWhile Char.isDigit).length = text.dropWhile Char.isDigit := by
    nth_rewrite 2 [← List.takeWhile_append_dropWhile (p := Char.isDigit) (l := text)]
    rw [List.drop_left]
  unfold Numeral.split? at h
  dsimp only at h
  split at h
  · cases h
  · obtain ⟨rfl, -⟩ := Prod.mk.inj (Option.some.inj h)
    unfold cutNumber
    dsimp only
    rw [← List.drop_drop, hwhole, drop_cutFraction, cutFraction_eq, cutExponent_eq, Numeral.text]

/-- A numeral is split off where a number starts. -/
theorem isSome_split? (text : List Char) : (Numeral.split? text).isSome = startsNumber text := by
  cases text with
  | nil => rfl
  | cons c others =>
    rw [startsNumber]
    by_cases hdigit : c.isDigit = true
    · have hwhole : ((c :: others).takeWhile Char.isDigit).isEmpty = false := by
        rw [isEmpty_takeWhile, List.head?_cons, Option.any_some, hdigit, Bool.not_true]
      rw [hdigit, Bool.true_or, Numeral.split?, hwhole]
      rfl
    · rw [Bool.not_eq_true] at hdigit
      by_cases hpoint : c = '.'
      · subst hpoint
        have hfraction : Numeral.splitFraction ('.' :: others) =
            (some (others.takeWhile Char.isDigit), others.dropWhile Char.isDigit) := rfl
        unfold Numeral.split?
        rw [List.takeWhile_cons_of_neg (by simp), List.dropWhile_cons_of_neg (by simp), hfraction]
        dsimp only
        rw [List.isEmpty_nil, Bool.true_and, Option.getD_some, isEmpty_takeWhile]
        cases others.head?.any Char.isDigit <;> rfl
      · rw [Numeral.split?_cons_eq_none hdigit hpoint, hdigit, beq_false_of_ne hpoint]
        rfl

/-- Where a number starts, a numeral is cut off, and it is read as the number of its token. -/
theorem exists_numeral_of_startsNumber (h : startsNumber text = true) :
    ∃ numeral, Numeral.WellFormed numeral ∧ cutNumber text = numeral.text ∧
      Numeral.readFloat? (cutNumber text) = some (numeral.value.toFloat false) ∧
      first? text = some (.atom (.number (numeral.value.toFloat false)), cutNumber text) := by
  rw [← isSome_split?] at h
  obtain ⟨⟨numeral, rest⟩, hsplit⟩ := Option.isSome_iff_exists.1 h
  obtain ⟨hnumeral, -⟩ := Numeral.of_split? hsplit
  have hcut := cutNumber_eq hsplit
  refine ⟨numeral, hnumeral, hcut, ?_, ?_⟩
  · rw [hcut]
    exact Numeral.readFloat?_numeral (.inl rfl) hnumeral
  · rw [first?, hsplit, hcut]

end Lexeme

/-! ## Scanning with numbers cut off first -/

/-- Why a text is not scanned, where what was cut off as a number may turn out to be none. -/
inductive ScanFault where
  | refused (reason : ParseError)
  | invalidNumber (text : List Char)
deriving DecidableEq

open Lexeme

/-- The token at the front of a text, and its characters; a number is read from what is cut off. -/
def Lexeme.cutFirst? (text : List Char) : Except ScanFault (Option (Token × List Char)) :=
  if startsNumber text then
    match Numeral.readFloat? (cutNumber text) with
    | some value => .ok (some (.atom (.number value), cutNumber text))
    | none => .error (.invalidNumber (cutNumber text))
  else if text.head?.any isQuote then .ok (quoted? text)
  else if text.head?.any startsName then
    .ok (some (.atom (wordAtom (text.takeWhile continuesName)), text.takeWhile continuesName))
  else .ok ((Symbol.ofStart? text).map fun s ↦ (.symbol s, s.text.toList))

/-- The tokens of what is left of a text, as `scanFrom` finds them, numbers being cut off first. -/
def cutFrom (offset skip : Nat) : List Char → Except ScanFault Scan
  | [] => .ok ⟨[], offset⟩
  | c :: rest =>
    match skip with
    | passed + 1 => cutFrom (offset + c.utf8Size) passed rest
    | 0 =>
      if isGap c then cutFrom (offset + c.utf8Size) 0 rest
      else do
        match ← cutFirst? (c :: rest) with
        | some (token, text) =>
          let after ← cutFrom (offset + c.utf8Size) (text.length - 1) rest
          return ⟨⟨token, text, offset⟩ :: after.lexemes, after.stop⟩
        | none =>
          if isQuote c then .error (.refused (.unterminatedText offset))
          else .error (.refused (.unexpectedChar c offset))

theorem Lexeme.cutFirst?_eq (text : List Char) : cutFirst? text = .ok (first? text) := by
  unfold cutFirst?
  by_cases hstarts : startsNumber text = true
  · obtain ⟨numeral, -, -, hread, hfirst⟩ := exists_numeral_of_startsNumber hstarts
    rw [if_pos hstarts, hread, hfirst]
  · have hsplit : Numeral.split? text = none := by
      rwa [← isSome_split?, Option.not_isSome_iff_eq_none] at hstarts
    rw [if_neg hstarts, first?, hsplit]
    dsimp only
    split
    · rfl
    · split <;> rfl

/-- Whatever is cut off as a number is one, so numbers are never at fault. -/
theorem cutFrom_eq (offset skip : Nat) (text : List Char) :
    cutFrom offset skip text = (scanFrom offset skip text).mapError .refused := by
  induction text generalizing offset skip with
  | nil => rfl
  | cons c others ih =>
    cases skip with
    | succ passed => exact ih _ _
    | zero =>
      rw [cutFrom, scanFrom]
      split
      · exact ih _ _
      · rw [cutFirst?_eq]
        change (match first? (c :: others) with
          | some (token, text) => _
          | none => _) = _
        cases hfirst : first? (c :: others) with
        | none =>
          dsimp only
          split <;> rfl
        | some found =>
          obtain ⟨token, text⟩ := found
          dsimp only
          rw [ih]
          cases scanFrom (offset + c.utf8Size) (text.length - 1) others <;> rfl

/-! ## Numbers as formulas -/

variable {sign : List Char} {numeral : Numeral}

/-- The tokens of a word that is a number: one for the numeral, and one for a sign before it. -/
def numberLexemes (magnitude : Float) : List Char → List Lexeme
  | '-' :: digits =>
    [⟨.symbol .minus, ['-'], 0⟩, ⟨.atom (.number magnitude), digits, 1⟩]
  | digits => [⟨.atom (.number magnitude), digits, 0⟩]

/-- A numeral is scanned as one token. -/
theorem scanFrom_numeral (h : numeral.WellFormed) (offset : Nat) :
    scanFrom offset 0 numeral.text =
      .ok ⟨[⟨.atom (.number (numeral.value.toFloat false)), numeral.text, offset⟩],
        offset + String.utf8Len numeral.text⟩ := by
  have hfirst := first?_numeral_append h Numeral.endsNumeral_nil
  have hscan := scanFrom_first hfirst offset
  rw [List.append_nil] at hscan
  rw [hscan]
  rfl

/-- A sign before a numeral is scanned as a token of its own. -/
theorem scanFrom_symbol_numeral (s : Symbol) (h : numeral.WellFormed) :
    scanFrom 0 0 (s.text.toList ++ numeral.text) =
      .ok ⟨[⟨.symbol s, s.text.toList, 0⟩,
        ⟨.atom (.number (numeral.value.toFloat false)), numeral.text,
          String.utf8Len s.text.toList⟩],
        String.utf8Len s.text.toList + String.utf8Len numeral.text⟩ := by
  have hhead : numeral.text.head? ≠ some '=' := by
    obtain ⟨c, others, htext, hc⟩ := h.exists_text_eq_cons
    rw [htext]
    intro hequals
    cases hequals
    exact absurd hc (by decide)
  rw [scanFrom_first (first?_symbol_append s hhead), Nat.zero_add, scanFrom_numeral h]
  rfl

/-- A word that is a number is a formula if it is parsed as an expression. -/
theorem compile_numberWord (h : isNumberWord word = true) :
    Formula.compile [.number word] =
      match Expr.parse word with
      | .ok expr => .ok ⟨word, expr⟩
      | .error reason => .error (.invalid word reason) := by
  have hspell : Formula.spell [.number word] = word := by
    rw [Formula.spell, joinWords, List.map_singleton, String.intercalate_singleton, Operand.raw]
  have hblank : ¬ (trimBlanks word.toList).isEmpty = true := by
    rw [List.isEmpty_iff, trimBlanks_eq_nil_iff]
    intro hblank
    obtain ⟨c, hc, hdigit⟩ := List.any_eq_true.1 (Bool.and_eq_true_iff.1 h).1
    have hnone := isBlank_of_isDigit hdigit
    rw [hblank c hc] at hnone
    cases hnone
  rw [Formula.compile, hspell]
  exact if_neg hblank

/--
A word whose tokens make a tree has, as a formula, the number that the tree has, and the same as an
operand if that is what is read from the whole word.
-/
theorem exists_formula_of_scan {found : Scan} {tree : Tree} {value : Float}
    (h : isNumberWord word = true) (hscan : scan word = .ok found)
    (hderives : Derives 0 found.tokens tree)
    (htree : ∀ resolve, tree.eval resolve = .ok (.number value))
    (hread : readNumber? word = some value) :
    ∃ formula, Formula.compile [.number word] = .ok formula ∧
      ∀ scopes scope, formula.eval scopes scope = .ok value ∧
        (Operand.number word).value? scopes scope = some (.number value) := by
  rw [compile_numberWord h, parse_of_derives hscan hderives]
  refine ⟨_, rfl, fun scopes scope ↦ ⟨?_, ?_⟩⟩
  · unfold Formula.eval
    dsimp only
    rw [Expr.eval_ofTree, htree]
    rfl
  · rw [Operand.value?, hread, Option.getD_some]

/--
What a word that is a number is as an operand, it is as a formula, too: one token for its numeral,
and its value in every scope. A plus sign makes it no formula.
-/
structure ReadAlike (word : String) : Prop where
  formula : word.toList.head? ≠ some '+' → ∃ magnitude value formula,
    scan word = .ok ⟨numberLexemes magnitude word.toList, word.utf8ByteSize⟩ ∧
    Formula.compile [.number word] = .ok formula ∧
    ∀ scopes scope, formula.eval scopes scope = .ok value ∧
      (Operand.number word).value? scopes scope = some (.number value)
  refused : word.toList.head? = some '+' → Formula.compile [.number word] =
    .error (.invalid word (.unexpectedToken (some (.symbol .plus)) .value 0))

theorem utf8ByteSize_eq (word : String) : word.utf8ByteSize = String.utf8Len word.toList := by
  rw [← String.utf8ByteSize_ofList, String.ofList_toList]

theorem readAlike_numeral (h : numeral.WellFormed) (hword : word.toList = numeral.text)
    (hnumber : isNumberWord word = true) : ReadAlike word := by
  obtain ⟨c, others, htext, hc⟩ := h.exists_text_eq_cons
  have hlexemes : numberLexemes (numeral.value.toFloat false) numeral.text =
      [⟨.atom (.number (numeral.value.toFloat false)), numeral.text, 0⟩] := by
    rw [htext]
    unfold numberLexemes
    split
    · rename_i hminus
      cases hminus
      exact absurd hc (by decide)
    · rfl
  have hscan : scan word =
      .ok ⟨numberLexemes (numeral.value.toFloat false) word.toList, word.utf8ByteSize⟩ := by
    rw [scan, utf8ByteSize_eq, hword, scanFrom_numeral h, hlexemes, Nat.zero_add]
  have hderives : Derives 0
      (Scan.tokens ⟨numberLexemes (numeral.value.toFloat false) word.toList, word.utf8ByteSize⟩)
      (.atom (.number (numeral.value.toFloat false))) := by
    rw [hword, hlexemes]
    exact (Derives.atom _).loosen (Nat.zero_le 7)
  have hread : readNumber? word = some (numeral.value.toFloat false) := by
    rw [readNumber?, hword]
    exact Numeral.readFloat?_numeral (.inl rfl) h
  obtain ⟨formula, hcompile, hvalues⟩ :=
    exists_formula_of_scan hnumber hscan hderives (fun _ ↦ rfl) hread
  refine ⟨fun _ ↦ ⟨_, _, formula, hscan, hcompile, hvalues⟩, fun hplus ↦ ?_⟩
  rw [hword, htext] at hplus
  cases hplus
  exact absurd hc (by decide)

theorem readAlike_minus (h : numeral.WellFormed) (hword : word.toList = '-' :: numeral.text)
    (hnumber : isNumberWord word = true) : ReadAlike word := by
  have hscan : scan word =
      .ok ⟨numberLexemes (numeral.value.toFloat false) word.toList, word.utf8ByteSize⟩ := by
    rw [scan, utf8ByteSize_eq, hword, String.utf8Len_cons, Nat.add_comm]
    exact scanFrom_symbol_numeral .minus h
  have hderives : Derives 0
      (Scan.tokens ⟨numberLexemes (numeral.value.toFloat false) word.toList, word.utf8ByteSize⟩)
      (.unary .negate (.atom (.number (numeral.value.toFloat false)))) := by
    have hoperand : Derives 6 [.atom (.number (numeral.value.toFloat false))] _ :=
      (Derives.atom _).loosen (by decide)
    rw [hword]
    exact (hoperand.unary : Derives 6 (.symbol UnaryOp.negate.symbol :: _) _).loosen
      (Nat.zero_le 6)
  have hread : readNumber? word = some (-numeral.value.toFloat false) := by
    rw [readNumber?, hword, Decimal.neg_toFloat]
    exact Numeral.readFloat?_numeral (.inr (.inr rfl)) h
  obtain ⟨formula, hcompile, hvalues⟩ :=
    exists_formula_of_scan hnumber hscan hderives (fun _ ↦ rfl) hread
  refine ⟨fun _ ↦ ⟨_, _, formula, hscan, hcompile, hvalues⟩, fun hplus ↦ ?_⟩
  rw [hword] at hplus
  cases hplus

theorem readAlike_plus (h : numeral.WellFormed) (hword : word.toList = '+' :: numeral.text)
    (hnumber : isNumberWord word = true) : ReadAlike word := by
  refine ⟨fun hplus ↦ absurd (by rw [hword]; rfl) hplus, fun _ ↦ ?_⟩
  have hscan := scanFrom_symbol_numeral .plus h
  have hparse : Expr.parse word =
      .error (.unexpectedToken (some (.symbol .plus)) .value 0) := by
    rw [Expr.parse, Tree.parse, scan, hword]
    change (scanFrom 0 0 (Symbol.plus.text.toList ++ numeral.text) >>= Tree.ofScan).map _ = _
    rw [hscan]
    rfl
  rw [compile_numberWord hnumber, hparse]

theorem readAlike_of_isNumberWord (h : isNumberWord word = true) : ReadAlike word := by
  obtain ⟨sign, numeral, hsign, hnumeral, hword⟩ := isNumberWord_iff.1 h
  rcases hsign with rfl | rfl | rfl
  · exact readAlike_numeral hnumeral hword h
  · exact readAlike_plus hnumeral hword h
  · exact readAlike_minus hnumeral hword h

/--
Words and expressions agree on numbers. The words that are read as numbers are those of the grammar;
with a digit in them they are the same number as an operand and as a formula; and what the scanner
cuts off as a number is read as one and is a word that is a number, so it never fails to be one.
-/
theorem numbers_agree :
    (∀ word, (readNumber? word).isSome = true ↔ Numeral.NumberText word.toList) ∧
      (∀ word, isNumberWord word = true → ReadAlike word) ∧
      (∀ text, startsNumber text = true → ∃ value,
        readNumber? (.ofList (cutNumber text)) = some value ∧
        isNumberWord (.ofList (cutNumber text)) = true ∧
        first? text = some (.atom (.number value), cutNumber text)) ∧
      ∀ text : String, cutFrom 0 0 text.toList = (scan text).mapError .refused := by
  refine ⟨fun _ ↦ Numeral.isSome_readFloat?_iff, fun _ ↦ readAlike_of_isNumberWord, ?_,
    fun text ↦ cutFrom_eq 0 0 text.toList⟩
  intro text hstarts
  obtain ⟨numeral, hnumeral, hcut, hread, hfirst⟩ := exists_numeral_of_startsNumber hstarts
  refine ⟨_, ?_, ?_, hfirst⟩
  · rw [readNumber?, String.toList_ofList, hread]
  · refine isNumberWord_iff.2 ⟨[], numeral, .inl rfl, hnumeral, ?_⟩
    rw [String.toList_ofList, hcut, List.nil_append]

theorem numbers_agree_signs : ReadAlike "-.5e1" ∧ ReadAlike "+2." ∧
    ∃ value, readNumber? (.ofList (cutNumber "7.e+x".toList)) = some value ∧
      isNumberWord (.ofList (cutNumber "7.e+x".toList)) = true ∧
      first? "7.e+x".toList = some (.atom (.number value), cutNumber "7.e+x".toList) :=
  ⟨numbers_agree.2.1 _ (by decide), numbers_agree.2.1 _ (by decide),
    numbers_agree.2.2.1 _ (by decide)⟩

end LineScript
