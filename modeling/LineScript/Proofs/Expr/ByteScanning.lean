import LineScript.Proofs.Expr.Tiling
import LineScript.Proofs.Operand.NumberWords
import LineScript.Proofs.Text.Bytes

/-!
# Scanning byte by byte

The tokens of a text may be found without decoding it: the scanner looks at single bytes, at most a
few ahead, and cuts out what it has passed over. A position is a number of bytes then, and nothing
in it says that it is between two characters; to cut a text anywhere else is a fault. Since all
tests are for ASCII characters, the scanner passes over whole characters only. So no cut is at
fault, and the tokens, where they start, and the reason why there are none, are those that are
found character by character.
-/

namespace LineScript

open Lexeme

/-- Why the bytes of a text are not scanned: there is a reason to refuse the text, or the scanner
itself fails, for what it cut out is no number, or it cut inside a character. -/
inductive ByteFault where
  | refused (reason : ParseError)
  | invalidNumber (text : String)
  | cut (start stop : Nat)
deriving DecidableEq

namespace ByteScanner

/-! ## The scanner -/

def cut (text : String) (start stop : Nat) : Except ByteFault String :=
  match slice? text start stop with
  | some part => .ok part
  | none => .error (.cut start stop)

/-- The end of a point at a position and of the digits behind it. -/
def fractionStop (text : String) (pos : Nat) : Nat :=
  if (byteAt? text pos).any (· == '.') then passOver text Char.isDigit (pos + 1) else pos

/-- The end of an exponent at a position; without digits it is none. -/
def exponentStop (text : String) (pos : Nat) : Nat :=
  if (byteAt? text pos).any (fun c ↦ c == 'e' || c == 'E') then
    let signs := if (byteAt? text (pos + 1)).any (fun c ↦ c == '+' || c == '-') then 1 else 0
    if (byteAt? text (pos + 1 + signs)).any Char.isDigit then
      passOver text Char.isDigit (pos + 1 + signs)
    else pos
  else pos

def number (text : String) (pos : Nat) : Except ByteFault (Token × Nat) := do
  let stop := exponentStop text (fractionStop text (passOver text Char.isDigit pos))
  let digits ← cut text pos stop
  match readNumber? digits with
  | some value => return (.atom (.number value), stop)
  | none => .error (.invalidNumber digits)

/-- The text that a quote at a position opens, and the position behind the quote that closes it. -/
def quoted (text : String) (quote : Char) (pos : Nat) : Except ByteFault (Token × Nat) :=
  let stop := passOver text (· != quote) (pos + 1)
  match byteAt? text stop with
  | some _ => do
    let body ← cut text (pos + 1) stop
    return (.atom (.text body), stop + 1)
  | none => .error (.refused (.unterminatedText pos))

def word (text : String) (pos : Nat) : Except ByteFault (Token × Nat) := do
  let stop := passOver text continuesName pos
  let name ← cut text pos stop
  return (.atom (wordAtom name.toList), stop)

/-- The symbol at a position, of one byte or of two, and its end. -/
def symbol (text : String) (first : Char) (pos : Nat) : Except ByteFault (Token × Nat) :=
  match Symbol.ofStart? (first :: (byteAt? text (pos + 1)).toList) with
  | some s => .ok (.symbol s, pos + s.text.utf8ByteSize)
  | none => do
    let rest ← cut text pos text.utf8ByteSize
    .error (.refused (.unexpectedChar (rest.toList.headD '\uFFFD') pos))

/-- The token at a position, where a byte stands that is no white space, and its end. -/
def tokenAt (text : String) (byte : Char) (pos : Nat) : Except ByteFault (Token × Nat) :=
  if byte.isDigit || (byte == '.' && (byteAt? text (pos + 1)).any Char.isDigit) then
    number text pos
  else if isQuote byte then quoted text byte pos
  else if startsName byte then word text pos
  else symbol text byte pos

/-- The first token from a position on, or the end, with the byte it starts at, and its end. -/
def nextToken (text : String) (pos : Nat) : Except ByteFault ((Option Token × Nat) × Nat) :=
  let start := passOver text isGap pos
  match byteAt? text start with
  | none => .ok ((none, start), start)
  | some byte => do
    let (token, stop) ← tokenAt text byte start
    return ((some token, start), stop)

/-- The loop over the tokens comes to an end: it finds the end of the text, or a fault. -/
inductive Runs (text : String) : Nat → Except ByteFault (List (Option Token × Nat)) → Prop where
  | stop {pos start after : Nat} : nextToken text pos = .ok ((none, start), after) →
      Runs text pos (.ok [(none, start)])
  | token {pos start after : Nat} {token : Token}
      {result : Except ByteFault (List (Option Token × Nat))} :
      nextToken text pos = .ok ((some token, start), after) → Runs text after result →
      Runs text pos (result.map ((some token, start) :: ·))
  | fault {pos : Nat} {fault : ByteFault} : nextToken text pos = .error fault →
      Runs text pos (.error fault)

variable {text : String} {before rest characters : List Char} {c byte : Char} {token : Token}
  {pos pos' : Nat} {result other : Except ByteFault (List (Option Token × Nat))}

theorem Runs.eq (h : Runs text pos result) (h' : Runs text pos other) : result = other := by
  induction h generalizing other with
  | stop hnext =>
    cases h' with
    | stop hother =>
      rw [hnext] at hother
      cases hother
      rfl
    | token hother | fault hother =>
      rw [hnext] at hother
      cases hother
  | token hnext _ ih =>
    cases h' with
    | token hother hrest =>
      rw [hnext] at hother
      cases hother
      rw [ih hrest]
    | stop hother | fault hother =>
      rw [hnext] at hother
      cases hother
  | fault hnext =>
    cases h' with
    | fault hother =>
      rw [hnext] at hother
      cases hother
      rfl
    | stop hother | token hother =>
      rw [hnext] at hother
      cases hother

theorem Runs.of_nextToken_eq (h : Runs text pos result)
    (hsame : nextToken text pos' = nextToken text pos) : Runs text pos' result := by
  cases h with
  | stop hnext => exact .stop (hsame.trans hnext)
  | token hnext hrest => exact .token (hsame.trans hnext) hrest
  | fault hnext => exact .fault (hsame.trans hnext)

theorem asciiTest_isGap : AsciiTest isGap :=
  ((((asciiTest_beq (by decide)).or (asciiTest_beq (by decide))).or
    (asciiTest_beq (by decide))).or (asciiTest_beq (by decide))).or (asciiTest_beq (by decide))

theorem asciiTest_isQuote : AsciiTest isQuote :=
  (asciiTest_beq (by decide)).or (asciiTest_beq (by decide))

theorem asciiTest_startsName : AsciiTest startsName :=
  asciiTest_isAlpha.or (asciiTest_beq (by decide))

theorem asciiTest_continuesName : AsciiTest continuesName :=
  (asciiTest_isAlpha.or asciiTest_isDigit).or (asciiTest_beq (by decide))

theorem toNat_lt_of_isQuote (hquote : isQuote c = true) : c.toNat < 128 := by
  rcases Bool.or_eq_true_iff.1 hquote with hdouble | hsingle
  · rw [eq_of_beq hdouble]
    decide
  · rw [eq_of_beq hsingle]
    decide

theorem utf8Len_concat (hc : c.toNat < 128) (before : List Char) :
    String.utf8Len (before ++ [c]) = String.utf8Len before + 1 := by
  rw [← length_byteChars, byteChars_append, byteChars_singleton hc, List.length_append,
    length_byteChars, List.length_singleton]

/-- The position behind an ASCII character is one further. -/
theorem behind (h : text.toList = before ++ c :: rest) (hc : c.toNat < 128) :
    text.toList = before ++ [c] ++ rest ∧
      String.utf8Len before + 1 = String.utf8Len (before ++ [c]) :=
  ⟨by rw [h, List.append_assoc, List.singleton_append], (utf8Len_concat hc before).symm⟩

theorem cut_eq {middle after : List Char} (h : text.toList = before ++ (middle ++ after)) :
    cut text (String.utf8Len before) (String.utf8Len (before ++ middle)) =
      .ok (.ofList middle) := by
  rw [cut, slice?_eq h]

theorem fractionStop_eq (h : text.toList = before ++ rest) :
    fractionStop text (String.utf8Len before) = String.utf8Len (before ++ cutFraction rest) := by
  rw [fractionStop, any_byteAt? (asciiTest_beq (by decide)) h]
  cases rest with
  | nil => exact congrArg String.utf8Len (List.append_nil before).symm
  | cons c others =>
    rw [List.head?_cons, Option.any_some]
    by_cases hpoint : c = '.'
    · subst hpoint
      obtain ⟨hbehind, hnext⟩ := behind h (by decide)
      rw [if_pos (beq_self_eq_true _), hnext, passOver_eq asciiTest_isDigit hbehind,
        List.append_assoc]
      rfl
    · have hnone : cutFraction (c :: others) = [] := by
        unfold cutFraction
        split
        · rename_i heq
          exact absurd (List.cons.inj heq).1 hpoint
        · rfl
      rw [if_neg (by simpa using hpoint), hnone, List.append_nil]

/-- A sign is one byte. -/
theorem utf8Len_take_signLength (rest : List Char) :
    String.utf8Len (rest.take (signLength rest)) = signLength rest := by
  unfold signLength
  split
  · rename_i hsign
    obtain ⟨c, hhead, hc⟩ := (Option.any_eq_true _ _).1 hsign
    obtain ⟨others, rfl⟩ := List.head?_eq_some_iff.1 hhead
    rcases Bool.or_eq_true_iff.1 hc with hplus | hminus
    · rw [eq_of_beq hplus]
      rfl
    · rw [eq_of_beq hminus]
      rfl
  · rfl

theorem exponentStop_eq (h : text.toList = before ++ rest) :
    exponentStop text (String.utf8Len before) = String.utf8Len (before ++ cutExponent rest) := by
  have hmarks : AsciiTest fun c ↦ c == 'e' || c == 'E' :=
    (asciiTest_beq (by decide)).or (asciiTest_beq (by decide))
  have hsigns : AsciiTest fun c ↦ c == '+' || c == '-' :=
    (asciiTest_beq (by decide)).or (asciiTest_beq (by decide))
  rw [exponentStop, any_byteAt? hmarks h]
  cases rest with
  | nil => exact congrArg String.utf8Len (List.append_nil before).symm
  | cons mark after =>
    rw [List.head?_cons, Option.any_some, cutExponent]
    by_cases hmark : (mark == 'e' || mark == 'E') = true
    · have hascii : mark.toNat < 128 := by
        rcases Bool.or_eq_true_iff.1 hmark with hlower | hupper
        · rw [eq_of_beq hlower]; decide
        · rw [eq_of_beq hupper]; decide
      obtain ⟨hbehind, hnext⟩ := behind h hascii
      have hsplit : text.toList =
          before ++ [mark] ++ after.take (signLength after) ++ after.drop (signLength after) := by
        rw [List.append_assoc _ (after.take _), List.take_append_drop, hbehind]
      have hpos : String.utf8Len (before ++ [mark]) + signLength after =
          String.utf8Len (before ++ [mark] ++ after.take (signLength after)) := by
        rw [String.utf8Len_append _ (after.take _), utf8Len_take_signLength]
      rw [if_pos hmark, hmark, Bool.true_and, hnext, any_byteAt? hsigns hbehind]
      change (if (byteAt? text (String.utf8Len (before ++ [mark]) + signLength after)).any
        Char.isDigit then passOver text Char.isDigit (_ + signLength after) else _) = _
      rw [hpos, any_byteAt? asciiTest_isDigit hsplit, List.head?_drop]
      split
      · rw [passOver_eq asciiTest_isDigit hsplit]
        simp only [List.append_assoc, List.cons_append, List.nil_append]
      · rw [List.append_nil]
    · rw [if_neg hmark, Bool.eq_false_of_not_eq_true hmark, Bool.false_and, if_neg (by simp),
        List.append_nil]

theorem numberStop_eq (h : text.toList = before ++ rest) :
    exponentStop text (fractionStop text (passOver text Char.isDigit (String.utf8Len before))) =
      String.utf8Len (before ++ cutNumber rest) := by
  have hwhole := List.prefix_iff_eq_append.1 (List.takeWhile_prefix Char.isDigit (l := rest))
  have hdigits : text.toList = before ++ rest.takeWhile Char.isDigit ++
      rest.drop (rest.takeWhile Char.isDigit).length := by
    rw [List.append_assoc, hwhole, h]
  have hpoint : text.toList = before ++ rest.takeWhile Char.isDigit ++
      cutFraction (rest.drop (rest.takeWhile Char.isDigit).length) ++
      (rest.drop (rest.takeWhile Char.isDigit).length).drop
        (cutFraction (rest.drop (rest.takeWhile Char.isDigit).length)).length := by
    rw [List.append_assoc _ (cutFraction _), drop_cutFraction, cutFraction_eq,
      Numeral.splitFraction_append, hdigits]
  rw [passOver_eq asciiTest_isDigit h, fractionStop_eq hdigits, exponentStop_eq hpoint,
    List.drop_drop, cutNumber]
  simp only [List.append_assoc]

theorem number_eq (h : text.toList = before ++ rest) (hstarts : startsNumber rest = true) :
    ∃ value, first? rest = some (.atom (.number value), cutNumber rest) ∧
      number text (String.utf8Len before) =
        .ok (.atom (.number value), String.utf8Len (before ++ cutNumber rest)) := by
  obtain ⟨numeral, -, -, hread, hfirst⟩ := exists_numeral_of_startsNumber hstarts
  obtain ⟨-, after, hafter⟩ := isToken_of_first? hfirst
  have hcut : text.toList = before ++ (cutNumber rest ++ after) := by rw [hafter, h]
  refine ⟨_, hfirst, ?_⟩
  rw [number, numberStop_eq h, cut_eq hcut]
  change (match readNumber? (.ofList (cutNumber rest)) with | some _ => _ | none => _) = _
  rw [readNumber?, String.toList_ofList, hread]
  rfl

theorem quoted_eq (h : text.toList = before ++ c :: rest) (hquote : isQuote c = true) :
    quoted text c (String.utf8Len before) =
      match quoted? (c :: rest) with
      | some (token, characters) => .ok (token, String.utf8Len (before ++ characters))
      | none => .error (.refused (refusal c (String.utf8Len before))) := by
  have hascii := toNat_lt_of_isQuote hquote
  obtain ⟨hbehind, hnext⟩ := behind h hascii
  have hstop : passOver text (· != c) (String.utf8Len (before ++ [c])) = _ :=
    passOver_eq (asciiTest_beq hascii).not hbehind
  rw [quoted, hnext]
  by_cases hmem : c ∈ rest
  · obtain ⟨body, after, rfl, hbody⟩ := List.eq_append_cons_of_mem hmem
    have hclosing : text.toList = before ++ [c] ++ body ++ c :: after := by
      rw [hbehind, ← List.append_assoc]
    obtain ⟨byte, hbyte, -⟩ := exists_byteAt? hclosing
    obtain ⟨-, hend⟩ := behind hclosing hascii
    rw [takeWhile_bne_append hbody] at hstop
    rw [hstop, hbyte, quoted?_append hquote hbody]
    dsimp only
    rw [cut_eq hbehind, hend]
    change Except.ok (_, _) = Except.ok (_, _)
    simp only [List.append_assoc, List.cons_append, List.nil_append]
  · have hall : rest.takeWhile (· != c) = rest := by
      rw [List.takeWhile_eq_self_iff]
      intro d hd
      rw [bne_iff_ne]
      rintro rfl
      exact hmem hd
    have hnone : quoted? (c :: rest) = none := by
      unfold quoted?
      exact if_neg (by simp [hmem])
    rw [hall, ← hbehind] at hstop
    rw [hstop, byteAt?_end, hnone, refusal, if_pos hquote]

theorem word_eq (h : text.toList = before ++ rest) :
    word text (String.utf8Len before) = .ok (.atom (wordAtom (rest.takeWhile continuesName)),
      String.utf8Len (before ++ rest.takeWhile continuesName)) := by
  have hcut : text.toList =
      before ++ (rest.takeWhile continuesName ++ rest.dropWhile continuesName) := by
    rw [List.takeWhile_append_dropWhile, h]
  rw [word, passOver_eq asciiTest_continuesName h, cut_eq hcut]
  change Except.ok (Token.atom (wordAtom (String.ofList _).toList), _) = _
  rw [String.toList_ofList]

/-- The symbols that two bytes start with are those that their characters start with. -/
theorem prefix_bytes_iff (h : text.toList = before ++ c :: rest) (hbyte : Resembles byte c)
    (s : Symbol) : s.text.toList <+: byte :: (byteAt? text (String.utf8Len before + 1)).toList ↔
      s.text.toList <+: c :: rest := by
  have hhead : ∀ (o : Option Char) (a : Char), o.any (· == a) = true ↔ o = some a := by
    intro o a
    cases o <;> simp
  have hfirst : ∀ a : Char, a.toNat < 128 → (a = byte ↔ a = c) := by
    intro a ha
    have hsame := (asciiTest_beq ha).eq_of_resembles hbyte
    rw [eq_comm, ← beq_iff_eq, hsame, beq_iff_eq, eq_comm]
  have hsecond : ∀ b : Char, b.toNat < 128 → c.toNat < 128 →
      ([b] <+: (byteAt? text (String.utf8Len before + 1)).toList ↔ [b] <+: rest) := by
    intro b hb hc
    obtain ⟨hbehind, hnext⟩ := behind h hc
    have hsame := any_byteAt? (asciiTest_beq hb) hbehind
    rw [hnext, List.singleton_prefix_iff_head?_eq_some, List.singleton_prefix_iff_head?_eq_some,
      Option.head?_toList, ← hhead, ← hhead, hsame]
  have hform : ∃ a tail, s.text.toList = a :: tail ∧ a.toNat < 128 ∧
      (tail = [] ∨ ∃ b, tail = [b] ∧ b.toNat < 128) := by
    cases s <;> first
      | exact ⟨_, [], rfl, by decide, .inl rfl⟩
      | exact ⟨_, _, rfl, by decide, .inr ⟨_, rfl, by decide⟩⟩
  obtain ⟨a, tail, htext, ha, htail⟩ := hform
  rw [htext, List.cons_prefix_cons, List.cons_prefix_cons, hfirst a ha]
  refine and_congr_right fun hc ↦ ?_
  rcases htail with rfl | ⟨b, rfl, hb⟩
  · exact iff_of_true List.nil_prefix List.nil_prefix
  · exact hsecond b hb (hc ▸ ha)

theorem symbol_eq (h : text.toList = before ++ c :: rest) (hbyte : Resembles byte c)
    (hquote : isQuote c = false) :
    symbol text byte (String.utf8Len before) =
      match Symbol.ofStart? (c :: rest) with
      | some s => .ok (.symbol s, String.utf8Len (before ++ s.text.toList))
      | none => .error (.refused (refusal c (String.utf8Len before))) := by
  rw [symbol, ofStart?_congr (prefix_bytes_iff h hbyte)]
  cases hstart : Symbol.ofStart? (c :: rest) with
  | some s =>
    dsimp only
    rw [utf8ByteSize_eq, String.utf8Len_append]
  | none =>
    have hcut : cut text (String.utf8Len before) (String.utf8Len (before ++ c :: rest)) =
        .ok (.ofList (c :: rest)) := cut_eq (h.trans (congrArg _ (List.append_nil _).symm))
    rw [← h, ← utf8ByteSize_eq] at hcut
    dsimp only
    rw [hcut, refusal, if_neg (by simp [hquote])]
    change Except.error (ByteFault.refused (.unexpectedChar ((String.ofList _).toList.headD _) _)) =
      _
    rw [String.toList_ofList]
    rfl

theorem startsNumber_eq (h : text.toList = before ++ c :: rest) (hbyte : Resembles byte c) :
    (byte.isDigit || (byte == '.' && (byteAt? text (String.utf8Len before + 1)).any Char.isDigit)) =
      startsNumber (c :: rest) := by
  have hpoint : (byte == '.') = (c == '.') := (asciiTest_beq (by decide)).eq_of_resembles hbyte
  rw [startsNumber, asciiTest_isDigit.eq_of_resembles hbyte, hpoint]
  by_cases hc : c = '.'
  · obtain ⟨hbehind, hnext⟩ := behind h (by rw [hc]; decide)
    rw [hnext, any_byteAt? asciiTest_isDigit hbehind]
  · rw [beq_false_of_ne hc, Bool.false_and, Bool.false_and]

/-- The token at a position is the one that the characters from there on start with. -/
theorem tokenAt_eq (h : text.toList = before ++ c :: rest) (hbyte : Resembles byte c) :
    tokenAt text byte (String.utf8Len before) =
      match first? (c :: rest) with
      | some (token, characters) => .ok (token, String.utf8Len (before ++ characters))
      | none => .error (.refused (refusal c (String.utf8Len before))) := by
  rw [tokenAt, startsNumber_eq h hbyte, asciiTest_isQuote.eq_of_resembles hbyte,
    asciiTest_startsName.eq_of_resembles hbyte]
  by_cases hnumber : startsNumber (c :: rest) = true
  · obtain ⟨value, hfirst, hread⟩ := number_eq h hnumber
    rw [if_pos hnumber, hread, hfirst]
  rw [if_neg hnumber]
  by_cases hquote : isQuote c = true
  · have hsame : byte = c := hbyte.resolve_right fun hhigh ↦
      absurd (toNat_lt_of_isQuote hquote) (Nat.not_lt.2 hhigh.2)
    rw [if_pos hquote, hsame, quoted_eq h hquote, first?_of_isQuote hquote]
  rw [if_neg hquote]
  by_cases hname : startsName c = true
  · rw [if_pos hname, word_eq h, first?_of_startsName hname]
  · have hsplit : Numeral.split? (c :: rest) = none := by
      rwa [← isSome_split?, Option.not_isSome_iff_eq_none] at hnumber
    have hfirst : first? (c :: rest) =
        (Symbol.ofStart? (c :: rest)).map fun s ↦ (.symbol s, s.text.toList) := by
      rw [first?, hsplit]
      simp [hquote, hname]
    rw [if_neg hname, symbol_eq h hbyte (Bool.eq_false_of_not_eq_true hquote), hfirst]
    cases Symbol.ofStart? (c :: rest) <;> rfl

theorem nextToken_eq (h : text.toList = before ++ c :: rest) (hgap : isGap c = false) :
    nextToken text (String.utf8Len before) =
      match first? (c :: rest) with
      | some (token, characters) =>
        .ok ((some token, String.utf8Len before), String.utf8Len (before ++ characters))
      | none => .error (.refused (refusal c (String.utf8Len before))) := by
  obtain ⟨byte, hbyteAt, hbyte⟩ := exists_byteAt? h
  have hstart : passOver text isGap (String.utf8Len before) = String.utf8Len before := by
    rw [passOver_eq asciiTest_isGap h, List.takeWhile_cons_of_neg (by simp [hgap]), List.append_nil]
  rw [nextToken, hstart]
  dsimp only
  rw [hbyteAt]
  dsimp only
  rw [tokenAt_eq h hbyte]
  cases first? (c :: rest) <;> rfl

theorem nextToken_gap (h : text.toList = before ++ c :: rest) (hgap : isGap c = true) :
    nextToken text (String.utf8Len before) = nextToken text (String.utf8Len (before ++ [c])) := by
  have hbehind : text.toList = before ++ [c] ++ rest := by
    rw [h, List.append_assoc, List.singleton_append]
  have hstart : passOver text isGap (String.utf8Len before) =
      passOver text isGap (String.utf8Len (before ++ [c])) := by
    rw [passOver_eq asciiTest_isGap h, passOver_eq asciiTest_isGap hbehind,
      List.takeWhile_cons_of_pos hgap, List.append_assoc, List.singleton_append]
  rw [nextToken, hstart]
  rfl

theorem nextToken_end (h : text.toList = before) : nextToken text (String.utf8Len before) =
    .ok ((none, String.utf8Len before), String.utf8Len before) := by
  have hstart : passOver text isGap (String.utf8Len before) = String.utf8Len before := by
    rw [passOver_eq asciiTest_isGap (h.trans (List.append_nil _).symm), List.takeWhile_nil,
      List.append_nil]
  rw [nextToken, hstart]
  dsimp only
  rw [← h, byteAt?_end]

/-- The bytes of what is left of a text are scanned as its characters are. -/
theorem runs_scanFrom (offset : Nat) (rest before : List Char) (h : text.toList = before ++ rest)
    (hoffset : offset = String.utf8Len before) :
    Runs text offset (((scanFrom offset 0 rest).map Scan.marks).mapError .refused) := by
  induction offset, rest using scan_induction generalizing before with
  | nil offset =>
    rw [List.append_nil] at h
    rw [hoffset]
    exact .stop (nextToken_end h)
  | gap offset c rest hgap ih =>
    have hbehind : text.toList = before ++ [c] ++ rest := by
      rw [h, List.append_assoc, List.singleton_append]
    have hnext : offset + c.utf8Size = String.utf8Len (before ++ [c]) := by
      rw [hoffset, String.utf8Len_append, String.utf8Len_cons, String.utf8Len_nil, Nat.zero_add]
    rw [scanFrom_gap hgap]
    refine (ih (before ++ [c]) hbehind hnext).of_nextToken_eq ?_
    rw [hoffset, nextToken_gap h hgap, ← hnext, hoffset]
  | token offset token characters rest hfirst ih =>
    obtain ⟨c, others, rfl⟩ :=
      List.exists_cons_of_ne_nil (isToken_of_first? hfirst).1.spelled.ne_nil
    have hbehind : text.toList = before ++ (c :: others) ++ rest := by
      rw [h, List.append_assoc]
    have hend : offset + String.utf8Len (c :: others) =
        String.utf8Len (before ++ (c :: others)) := by
      rw [hoffset, String.utf8Len_append]
    have hcons : text.toList = before ++ c :: (others ++ rest) := h
    have hfront : first? (c :: (others ++ rest)) = some (token, c :: others) := hfirst
    have hnext := nextToken_eq hcons (isGap_of_first? hfront)
    rw [hfront, ← hoffset] at hnext
    dsimp only at hnext
    rw [← hend] at hnext
    have hrun := Runs.token hnext (ih _ hbehind hend)
    rw [scanFrom_first hfirst]
    cases hscan : scanFrom (offset + String.utf8Len (c :: others)) 0 rest with
    | ok after =>
      rw [hscan] at hrun
      exact hrun
    | error reason =>
      rw [hscan] at hrun
      exact hrun
  | refused offset c rest hgap hnone =>
    rw [scanFrom_refused hgap hnone, hoffset]
    refine .fault ?_
    rw [nextToken_eq h hgap, hnone]

/-- The loop over the bytes comes to an end, in one way, and that is what the characters say. -/
theorem runs_iff (text : String) (result : Except ByteFault (List (Option Token × Nat))) :
    Runs text 0 result ↔ result = ((scan text).map Scan.marks).mapError .refused := by
  have hruns := runs_scanFrom 0 text.toList [] rfl rfl
  refine ⟨fun h ↦ h.eq hruns, ?_⟩
  rintro rfl
  exact hruns

end ByteScanner

/-! ## Where tokens stand -/

/--
The tokens of a text tile it. Behind them comes the end, at the number of its bytes, and where they
start is between two characters, one behind the other; a token is what the text holds from there on.
The characters of the tokens alone, with a blank between neighbours, have the same tokens.
-/
structure TilesText (text : String) (found : Scan) : Prop where
  tiled : Tiled text.utf8ByteSize [] 0 text.toList found.lexemes
  marks : found.marks = found.lexemes.map (fun lexeme ↦ (some lexeme.token, lexeme.offset)) ++
    [(none, text.utf8ByteSize)]
  ascending : (found.marks.map Prod.snd).Pairwise (· < ·)
  boundary : ∀ mark ∈ found.marks, String.Pos.Raw.IsValid text ⟨mark.2⟩
  slice : ∀ lexeme ∈ found.lexemes,
    slice? text lexeme.offset (lexeme.offset + String.utf8Len lexeme.text) =
      some (.ofList lexeme.text)
  again : ∃ again, scan found.respelled = .ok again ∧
    again.marks.map Prod.fst = found.marks.map Prod.fst

/-- A text is refused for the first character, between tokens that tile all before it, that no token
begins with: a quote that is not closed, or another character. -/
def TilesUpToFault (text : String) (reason : ParseError) : Prop :=
  ∃ stop c rest lexemes, Tiled stop (c :: rest) 0 text.toList lexemes ∧
    String.Pos.Raw.IsValid text ⟨stop⟩ ∧ Stuck c rest ∧ reason = refusal c stop

theorem tilesText_of_scan {text : String} {found : Scan} (h : scan text = .ok found) :
    TilesText text found := by
  have htiled := tiled_of_scanFrom h
  have hstop : found.stop = text.utf8ByteSize := by
    obtain ⟨start, hstart, hlength⟩ := htiled.exists_start
    rw [List.append_nil] at hstart
    rw [hlength, ← hstart, Nat.zero_add, utf8ByteSize_eq]
  have hoffsets : found.marks.map Prod.snd = found.lexemes.map Lexeme.offset ++ [found.stop] := by
    rw [Scan.marks, List.map_append, List.map_map]
    rfl
  have hplace : ∀ lexeme ∈ found.lexemes, ∃ before after,
      text.toList = before ++ (lexeme.text ++ after) ∧ lexeme.offset = String.utf8Len before := by
    intro lexeme hmem
    obtain ⟨before, after, htext, hoffset⟩ := htiled.exists_before hmem
    exact ⟨before, after, htext, by rw [hoffset, Nat.zero_add]⟩
  constructor
  · rwa [hstop] at htiled
  · rw [Scan.marks, hstop]
  · rw [hoffsets]
    exact htiled.ascending
  · intro mark hmark
    have hmem := List.mem_map_of_mem (f := Prod.snd) hmark
    rw [hoffsets] at hmem
    rcases List.mem_append.1 hmem with hlexeme | hend
    · obtain ⟨lexeme, hlexeme, hsame⟩ := List.mem_map.1 hlexeme
      obtain ⟨before, after, htext, hoffset⟩ := hplace lexeme hlexeme
      rw [← hsame, hoffset]
      exact isValid_of_append htext
    · rw [List.mem_singleton.1 hend, hstop, utf8ByteSize_eq]
      exact isValid_of_append (List.append_nil _).symm
  · intro lexeme hlexeme
    obtain ⟨before, after, htext, hoffset⟩ := hplace lexeme hlexeme
    rw [hoffset, ← String.utf8Len_append]
    exact slice?_eq htext
  · obtain ⟨again, hagain, htokens⟩ := scansTo_joinWords htiled.isToken 0
    have hsame := congrArg (List.map some) htokens
    rw [Scan.tokens, List.map_map, List.map_map] at hsame
    refine ⟨again, hagain, ?_⟩
    rw [marks_fst, marks_fst]
    exact congrArg (· ++ [none]) hsame

/--
Every text is scanned as its bytes are: the loop over the bytes comes to an end, no cut is at fault,
and what it finds are the tokens of the characters, or why there are none. If there are tokens, they
tile the text; if not, they tile it up to the character that it is refused for.
-/
structure ScansExactly (text : String) : Prop where
  runs : ∀ result, ByteScanner.Runs text 0 result ↔
    result = ((scan text).map Scan.marks).mapError .refused
  tiles : ∀ found, scan text = .ok found → TilesText text found
  stops : ∀ reason, scan text = .error reason → TilesUpToFault text reason

theorem scansExactly (text : String) : ScansExactly text where
  runs := ByteScanner.runs_iff text
  tiles _ := tilesText_of_scan
  stops reason h := by
    obtain ⟨stop, c, rest, lexemes, htiled, hstuck, hreason⟩ := tiled_of_scanFrom_error h
    obtain ⟨start, htext, hstop⟩ := htiled.exists_start
    rw [Nat.zero_add] at hstop
    refine ⟨stop, c, rest, lexemes, htiled, ?_, hstuck, hreason⟩
    rw [hstop]
    exact isValid_of_append htext

example : scan "a<='é'" = .ok ⟨[⟨.atom (.name "a"), ['a'], 0⟩, ⟨.symbol .atMost, ['<', '='], 1⟩,
    ⟨.atom (.text "é"), ['\'', 'é', '\''], 3⟩], 7⟩ := by
  decide +kernel

end LineScript
