import LineScript.Number.Decimal
import Mathlib.Data.List.TakeWhile
import Mathlib.Tactic.Common

/-!
# How numbers are written

A numeral is digits, of which some may stand behind a point, and perhaps an exponent, which has
digits of its own. What is taken off the front of a text is always such a numeral, and a numeral is
taken off as it was written where nothing follows that goes on with it. With a sign in front, or a
name in its place, this is what a whole word is read as a number from; sign and numeral can both be
read off the word again.
-/

namespace LineScript

variable {text rest digits : List Char}

/-- A sign, or none. -/
def IsSign (sign : List Char) : Prop :=
  sign = [] ∨ sign = ['+'] ∨ sign = ['-']

theorem IsSign.isDigit {sign : List Char} (h : IsSign sign) : ∀ c ∈ sign, c.isDigit = false := by
  rcases h with rfl | rfl | rfl
  · exact List.forall_mem_nil _
  · exact List.forall_mem_singleton.2 rfl
  · exact List.forall_mem_singleton.2 rfl

structure ExponentPart.WellFormed (part : ExponentPart) : Prop where
  mark : part.mark = 'e' ∨ part.mark = 'E'
  sign : IsSign part.sign
  digits_ne_nil : part.digits ≠ []
  isDigit : ∀ c ∈ part.digits, c.isDigit = true

structure Numeral.WellFormed (numeral : Numeral) : Prop where
  digits_ne_nil : numeral.whole ++ numeral.fractionDigits ≠ []
  isDigit : ∀ c ∈ numeral.whole ++ numeral.fractionDigits, c.isDigit = true
  exponent : ∀ part, numeral.exponent = some part → part.WellFormed

theorem takeWhile_isDigit_append (hdigits : ∀ c ∈ digits, c.isDigit = true)
    (hrest : ∀ c, rest.head? = some c → c.isDigit = false) :
    (digits ++ rest).takeWhile Char.isDigit = digits ∧
      (digits ++ rest).dropWhile Char.isDigit = rest := by
  rw [List.takeWhile_append_of_pos hdigits, List.dropWhile_append_of_pos hdigits]
  cases rest with
  | nil => simp
  | cons c others => simp [hrest c rfl]

theorem isDigit_of_mem_takeWhile : ∀ c ∈ text.takeWhile Char.isDigit, c.isDigit = true :=
  fun _ hc ↦ List.mem_takeWhile_imp hc

theorem length_le_takeWhile_isDigit (hdigits : ∀ c ∈ digits, c.isDigit = true) :
    digits.length ≤ ((digits ++ rest).takeWhile Char.isDigit).length := by
  rw [List.takeWhile_append_of_pos hdigits, List.length_append]
  exact Nat.le_add_right _ _

namespace ExponentPart

variable {part : ExponentPart}

theorem splitSign_append (text : List Char) : (splitSign text).1 ++ (splitSign text).2 = text := by
  unfold splitSign
  split <;> rfl

theorem isSign_splitSign (text : List Char) : IsSign (splitSign text).1 := by
  unfold splitSign IsSign
  split <;> simp

/-- A sign is split off, and nothing else: what is no sign stays. -/
theorem splitSign_of_isSign {sign : List Char} (hsign : IsSign sign)
    (hrest : ∀ c, rest.head? = some c → c ≠ '+' ∧ c ≠ '-') :
    splitSign (sign ++ rest) = (sign, rest) := by
  rcases hsign with rfl | rfl | rfl
  · cases rest with
    | nil => rfl
    | cons c others =>
      obtain ⟨hplus, hminus⟩ := hrest c rfl
      unfold splitSign
      split
      · rename_i heq
        exact absurd (List.cons.inj heq).1 hminus
      · rename_i heq
        exact absurd (List.cons.inj heq).1 hplus
      · rfl
  · rfl
  · rfl

theorem ne_sign_of_isDigit {c : Char} (h : c.isDigit = true) : c ≠ '+' ∧ c ≠ '-' := by
  constructor <;>
  · rintro rfl
    cases h

/-- What is split off is an exponent, and was there. -/
theorem of_split? (h : split? text = some (part, rest)) :
    part.WellFormed ∧ text = part.text ++ rest := by
  cases text with
  | nil => cases h
  | cons mark afterMark =>
    unfold split? at h
    dsimp only at h
    split at h
    · rename_i hfound
      cases h
      obtain ⟨hmark, hdigits⟩ := Bool.and_eq_true_iff.1 hfound
      refine ⟨⟨?_, isSign_splitSign _, ?_, isDigit_of_mem_takeWhile⟩, ?_⟩
      · simpa using hmark
      · simpa using hdigits
      · rw [ExponentPart.text, List.cons_append, List.cons_append, List.append_assoc,
          List.takeWhile_append_dropWhile, splitSign_append]
    · cases h

/-- An exponent is split off with all digits that follow it. -/
theorem WellFormed.split?_append_eq (h : part.WellFormed) (rest : List Char) :
    split? (part.text ++ rest) =
      some (⟨part.mark, part.sign, part.digits ++ rest.takeWhile Char.isDigit⟩,
        rest.dropWhile Char.isDigit) := by
  have hsign : splitSign (part.sign ++ (part.digits ++ rest)) =
      (part.sign, part.digits ++ rest) := by
    refine splitSign_of_isSign h.sign fun c hc ↦ ne_sign_of_isDigit (h.isDigit c ?_)
    cases hdigits : part.digits with
    | nil => exact absurd hdigits h.digits_ne_nil
    | cons first others =>
      rw [hdigits] at hc
      cases hc
      exact List.mem_cons_self
  have hmark : (part.mark == 'e' || part.mark == 'E') = true := by simpa using h.mark
  rw [text, List.cons_append, List.cons_append, List.append_assoc, split?]
  dsimp only
  rw [hsign]
  dsimp only
  rw [List.takeWhile_append_of_pos h.isDigit, List.dropWhile_append_of_pos h.isDigit, hmark]
  simp [h.digits_ne_nil]

/-- An exponent is split off as it was written. -/
theorem WellFormed.split?_append (h : part.WellFormed)
    (hrest : ∀ c, rest.head? = some c → c.isDigit = false) :
    split? (part.text ++ rest) = some (part, rest) := by
  obtain ⟨htake, hdrop⟩ := takeWhile_isDigit_append (List.forall_mem_nil _) hrest
  rw [List.nil_append] at htake hdrop
  rw [h.split?_append_eq, htake, hdrop, List.append_nil]

end ExponentPart

namespace Numeral

variable {numeral : Numeral}

/-! ## Numerals at the front of a text -/

theorem splitFraction_append (text : List Char) :
    ((splitFraction text).1.map ('.' :: ·)).getD [] ++ (splitFraction text).2 = text := by
  unfold splitFraction
  split
  · simp
  · rfl

theorem isDigit_of_mem_splitFraction :
    ∀ c ∈ (splitFraction text).1.getD [], c.isDigit = true := by
  unfold splitFraction
  split
  · exact isDigit_of_mem_takeWhile
  · exact List.forall_mem_nil _

theorem splitExponent_append (text : List Char) :
    ((splitExponent text).1.map ExponentPart.text).getD [] ++ (splitExponent text).2 = text := by
  unfold splitExponent
  split
  · rename_i hsplit
    exact (ExponentPart.of_split? hsplit).2.symm
  · rfl

theorem wellFormed_of_splitExponent {part : ExponentPart}
    (h : (splitExponent text).1 = some part) : part.WellFormed := by
  unfold splitExponent at h
  split at h
  · rename_i hsplit
    cases h
    exact (ExponentPart.of_split? hsplit).1
  · cases h

/-- What is split off is a numeral, and was there. -/
theorem of_split? (h : split? text = some (numeral, rest)) :
    numeral.WellFormed ∧ text = numeral.text ++ rest := by
  unfold split? at h
  dsimp only at h
  split at h
  · cases h
  · rename_i hdigits
    obtain ⟨rfl, rfl⟩ := Prod.mk.inj (Option.some.inj h)
    refine ⟨⟨?_, ?_, fun part ↦ wellFormed_of_splitExponent⟩, ?_⟩
    · rw [Bool.not_eq_true, Bool.and_eq_false_iff, List.isEmpty_eq_false_iff,
        List.isEmpty_eq_false_iff] at hdigits
      rw [ne_eq, List.append_eq_nil_iff, not_and_or]
      exact hdigits
    · exact List.forall_mem_append.2 ⟨isDigit_of_mem_takeWhile, isDigit_of_mem_splitFraction⟩
    · rw [Numeral.text, List.append_assoc, List.append_assoc, splitExponent_append,
        splitFraction_append, List.takeWhile_append_dropWhile]

/-- A text begins with a number only if its first character does. -/
theorem split?_cons_eq_none {c : Char} (hdigit : c.isDigit = false) (hpoint : c ≠ '.') :
    split? (c :: rest) = none := by
  have hfraction : splitFraction (c :: rest) = (none, c :: rest) := by
    unfold splitFraction
    split
    · rename_i heq
      exact absurd (List.cons.inj heq).1 hpoint
    · rfl
  unfold split?
  rw [List.takeWhile_cons_of_neg (by simp [hdigit]), List.dropWhile_cons_of_neg (by simp [hdigit]),
    hfraction]
  rfl

/-- What follows a numeral: nothing, or a character that does not go on with it. -/
def EndsNumeral (rest : List Char) : Prop :=
  ∀ c, rest.head? = some c → c.isDigit = false ∧ c ≠ '.' ∧ c ≠ 'e' ∧ c ≠ 'E'

theorem splitExponent_of_ends (hrest : EndsNumeral rest) : splitExponent rest = (none, rest) := by
  cases rest with
  | nil => rfl
  | cons c others =>
    obtain ⟨-, -, hlower, hupper⟩ := hrest c rfl
    have hnone : ExponentPart.split? (c :: others) = none := by
      simp [ExponentPart.split?, hlower, hupper]
    rw [splitExponent, hnone]

theorem splitExponent_of_wellFormed {exponent : Option ExponentPart}
    (h : ∀ part, exponent = some part → part.WellFormed) (hrest : EndsNumeral rest) :
    splitExponent ((exponent.map ExponentPart.text).getD [] ++ rest) = (exponent, rest) := by
  cases exponent with
  | none => exact splitExponent_of_ends hrest
  | some part =>
    have hsplit := (h part rfl).split?_append fun c hc ↦ (hrest c hc).1
    rw [Option.map_some, Option.getD_some, splitExponent, hsplit]

/-- Behind a numeral without its exponent there is neither a digit nor a point. -/
theorem head?_exponent {exponent : Option ExponentPart}
    (h : ∀ part, exponent = some part → part.WellFormed) (hrest : EndsNumeral rest) {c : Char}
    (hc : ((exponent.map ExponentPart.text).getD [] ++ rest).head? = some c) :
    c.isDigit = false ∧ c ≠ '.' := by
  cases exponent with
  | none => exact ⟨(hrest c hc).1, (hrest c hc).2.1⟩
  | some part =>
    cases hc
    rcases (h part rfl).mark with hmark | hmark <;>
    · rw [hmark]
      decide

theorem splitFraction_of_isDigit {fraction : Option (List Char)}
    (hfraction : ∀ c ∈ fraction.getD [], c.isDigit = true)
    (hrest : ∀ c, rest.head? = some c → c.isDigit = false ∧ c ≠ '.') :
    splitFraction ((fraction.map ('.' :: ·)).getD [] ++ rest) = (fraction, rest) := by
  cases fraction with
  | none =>
    change splitFraction rest = _
    unfold splitFraction
    split
    · exact absurd rfl (hrest '.' rfl).2
    · rfl
  | some digits =>
    obtain ⟨htake, hdrop⟩ := takeWhile_isDigit_append hfraction fun c hc ↦ (hrest c hc).1
    change (some ((digits ++ rest).takeWhile Char.isDigit),
      (digits ++ rest).dropWhile Char.isDigit) = _
    exact Prod.ext (congrArg some htake) hdrop

/-- Behind the digits of a numeral, whatever follows them, is what does not go on with them. -/
theorem WellFormed.split_digits (h : numeral.WellFormed)
    (hrest : ∀ c, rest.head? = some c → c.isDigit = false ∧ c ≠ '.') {before : List Char}
    (hbefore : before = numeral.whole ++ ((numeral.fraction.map ('.' :: ·)).getD [] ++ rest)) :
    before.takeWhile Char.isDigit = numeral.whole ∧
      splitFraction (before.dropWhile Char.isDigit) = (numeral.fraction, rest) := by
  obtain ⟨hwhole, hfraction⟩ := List.forall_mem_append.1 h.isDigit
  have hstop : ∀ c, ((numeral.fraction.map ('.' :: ·)).getD [] ++ rest).head? = some c →
      c.isDigit = false := by
    intro c hc
    cases hpoint : numeral.fraction with
    | none =>
      rw [hpoint] at hc
      exact (hrest c hc).1
    | some digits =>
      rw [hpoint] at hc
      cases hc
      rfl
  obtain ⟨htake, hdrop⟩ := takeWhile_isDigit_append hwhole hstop
  rw [hbefore, htake, hdrop]
  exact ⟨rfl, splitFraction_of_isDigit hfraction hrest⟩

/-- A numeral is taken off the front of a text as it was written. -/
theorem WellFormed.split?_append (h : numeral.WellFormed) (hrest : EndsNumeral rest) :
    split? (numeral.text ++ rest) = some (numeral, rest) := by
  have hexponent := splitExponent_of_wellFormed h.exponent hrest
  obtain ⟨htake, hbehind⟩ := h.split_digits (fun _ ↦ head?_exponent h.exponent hrest) rfl
  have hdigits : ¬ (numeral.whole.isEmpty && (numeral.fraction.getD []).isEmpty) = true := by
    rw [Bool.and_eq_true, List.isEmpty_iff, List.isEmpty_iff, ← List.append_eq_nil_iff]
    exact h.digits_ne_nil
  unfold split?
  rw [text, List.append_assoc, List.append_assoc, htake, hbehind]
  dsimp only
  rw [hexponent]
  exact if_neg hdigits

theorem endsNumeral_nil : EndsNumeral [] :=
  fun _ hnone ↦ by cases hnone

/-- Digits before a point and digits behind it; the point is left out where none are behind it. -/
def plain (whole fraction : List Char) : Numeral :=
  ⟨whole, if fraction.isEmpty then none else some fraction, none⟩

@[simp]
theorem fractionDigits_plain (whole fraction : List Char) :
    (plain whole fraction).fractionDigits = fraction := by
  unfold plain fractionDigits
  split
  · rename_i hempty
    exact (List.isEmpty_iff.1 hempty).symm
  · rfl

theorem text_plain (whole fraction : List Char) : (plain whole fraction).text =
    if fraction.isEmpty then whole else whole ++ '.' :: fraction := by
  unfold plain
  split <;> simp [text]

theorem wellFormed_plain {whole fraction : List Char} (hne : whole ≠ [])
    (hwhole : ∀ c ∈ whole, c.isDigit = true) (hfraction : ∀ c ∈ fraction, c.isDigit = true) :
    (plain whole fraction).WellFormed where
  digits_ne_nil hnil := hne (List.append_eq_nil_iff.1 hnil).1
  isDigit := by
    rw [fractionDigits_plain]
    exact List.forall_mem_append.2 ⟨hwhole, hfraction⟩
  exponent _ hpart := by cases hpart

variable {whole : List Char} {fraction : Option (List Char)}

/-- Where there is a digit, before the point or behind it, a numeral is split off. -/
theorem exists_split?_eq_some (htake : text.takeWhile Char.isDigit = whole)
    (hbehind : splitFraction (text.dropWhile Char.isDigit) = (fraction, rest))
    (hdigits : whole ≠ [] ∨ fraction.getD [] ≠ []) :
    ∃ after, split? text = some (⟨whole, fraction, (splitExponent rest).1⟩, after) := by
  refine ⟨(splitExponent rest).2, ?_⟩
  unfold split?
  dsimp only
  rw [htake, hbehind]
  refine if_neg ?_
  rw [Bool.and_eq_true, List.isEmpty_iff, List.isEmpty_iff, not_and_or]
  exact hdigits

/-- With an exponent nothing but its last digits can go on. -/
theorem WellFormed.exists_split?_of_exponent (h : numeral.WellFormed) {part : ExponentPart}
    (hexponent : numeral.exponent = some part) (rest : List Char) :
    ∃ longest after, split? (numeral.text ++ rest) = some (longest, after) ∧
      numeral.text.length ≤ longest.text.length := by
  have hpart := h.exponent part hexponent
  have htext : numeral.text ++ rest =
      numeral.whole ++ ((numeral.fraction.map ('.' :: ·)).getD [] ++ (part.text ++ rest)) := by
    rw [text, hexponent, Option.map_some, Option.getD_some, List.append_assoc, List.append_assoc]
  have hmark : ∀ c, (part.text ++ rest).head? = some c → c.isDigit = false ∧ c ≠ '.' := by
    intro c hc
    cases hc
    rcases hpart.mark with hmark | hmark <;>
    · rw [hmark]
      decide
  obtain ⟨htake, hbehind⟩ := h.split_digits hmark htext
  obtain ⟨after, hsplit⟩ := exists_split?_eq_some htake hbehind
    (by rw [← not_and_or, ← List.append_eq_nil_iff]; exact h.digits_ne_nil)
  rw [splitExponent, hpart.split?_append_eq] at hsplit
  refine ⟨_, after, hsplit, ?_⟩
  simp only [text, hexponent, ExponentPart.text, Option.map_some, Option.getD_some,
    List.length_append, List.length_cons]
  omega

/-- Behind a point more digits can follow. -/
theorem WellFormed.exists_split?_of_point (h : numeral.WellFormed)
    (hpoint : numeral.fraction = some digits) (hexponent : numeral.exponent = none)
    (rest : List Char) : ∃ longest after, split? (numeral.text ++ rest) = some (longest, after) ∧
      numeral.text.length ≤ longest.text.length := by
  obtain ⟨hwhole, hfraction⟩ := List.forall_mem_append.1 h.isDigit
  have htext : numeral.text ++ rest = numeral.whole ++ '.' :: (digits ++ rest) := by
    simp [text, hpoint, hexponent]
  obtain ⟨htake, hdrop⟩ := @takeWhile_isDigit_append ('.' :: (digits ++ rest)) _ hwhole
    fun c hc ↦ by cases hc; rfl
  rw [← htext] at htake hdrop
  have hbehind : splitFraction ((numeral.text ++ rest).dropWhile Char.isDigit) =
      (some ((digits ++ rest).takeWhile Char.isDigit),
        (digits ++ rest).dropWhile Char.isDigit) := by
    rw [hdrop]
    rfl
  have hlonger := @length_le_takeWhile_isDigit rest digits fun c hc ↦
    hfraction c (by rwa [fractionDigits, hpoint])
  have hsome : numeral.whole ≠ [] ∨ (digits ++ rest).takeWhile Char.isDigit ≠ [] := by
    have hne := h.digits_ne_nil
    rw [fractionDigits, hpoint, Option.getD_some, ne_eq, List.append_eq_nil_iff, not_and_or] at hne
    refine hne.imp_right fun hdigits ↦ ?_
    have hpos := List.length_pos_iff.2 hdigits
    exact List.length_pos_iff.1 (by omega)
  obtain ⟨after, hsplit⟩ := exists_split?_eq_some htake hbehind hsome
  refine ⟨_, after, hsplit, ?_⟩
  simp only [text, hexponent, hpoint, List.length_append, Option.map_none, Option.map_some,
    Option.getD_none, Option.getD_some, List.length_cons, List.length_nil]
  omega

theorem length_whole_le (numeral : Numeral) : numeral.whole.length ≤ numeral.text.length := by
  rw [text, List.append_assoc, List.length_append]
  exact Nat.le_add_right _ _

/-- Digits alone can be followed by digits, a point and an exponent. -/
theorem WellFormed.exists_split?_of_whole (h : numeral.WellFormed)
    (hpoint : numeral.fraction = none) (hexponent : numeral.exponent = none) (rest : List Char) :
    ∃ longest after, split? (numeral.text ++ rest) = some (longest, after) ∧
      numeral.text.length ≤ longest.text.length := by
  have htext : numeral.text = numeral.whole := by simp [text, hpoint, hexponent]
  have hne : numeral.whole ≠ [] := by
    have hdigits := h.digits_ne_nil
    rwa [fractionDigits, hpoint, Option.getD_none, List.append_nil] at hdigits
  have hlonger := @length_le_takeWhile_isDigit rest _ (List.forall_mem_append.1 h.isDigit).1
  rw [← htext] at hlonger hne
  have hpos := List.length_pos_iff.2 hne
  generalize hwhole : (numeral.text ++ rest).takeWhile Char.isDigit = longer at hlonger
  generalize hbehind : splitFraction ((numeral.text ++ rest).dropWhile Char.isDigit) = behind
  obtain ⟨after, hsplit⟩ := exists_split?_eq_some hwhole hbehind
    (.inl (List.length_pos_iff.1 (by omega)))
  have hwhole := length_whole_le ⟨longer, behind.1, (splitExponent behind.2).1⟩
  exact ⟨_, after, hsplit, hlonger.trans hwhole⟩

/-- What is split off a text is the longest numeral that the text starts with. -/
theorem WellFormed.exists_split? (h : numeral.WellFormed) (rest : List Char) :
    ∃ longest after, split? (numeral.text ++ rest) = some (longest, after) ∧
      numeral.text.length ≤ longest.text.length := by
  cases hexponent : numeral.exponent with
  | some part => exact h.exists_split?_of_exponent hexponent rest
  | none =>
    cases hpoint : numeral.fraction with
    | some digits => exact h.exists_split?_of_point hpoint hexponent rest
    | none => exact h.exists_split?_of_whole hpoint hexponent rest

/-! ## Whole words -/

/-- A numeral starts with a digit or a point. -/
theorem WellFormed.exists_text_eq_cons (h : numeral.WellFormed) :
    ∃ c others, numeral.text = c :: others ∧ (c.isDigit = true ∨ c = '.') := by
  cases hwhole : numeral.whole with
  | cons c others =>
    refine ⟨c, _, by rw [text, hwhole]; rfl, .inl (h.isDigit c ?_)⟩
    rw [hwhole]
    exact List.mem_cons_self
  | nil =>
    cases hfraction : numeral.fraction with
    | some digits => exact ⟨'.', _, by rw [text, hwhole, hfraction]; rfl, .inr rfl⟩
    | none =>
      refine absurd ?_ h.digits_ne_nil
      rw [hwhole, fractionDigits, hfraction]
      rfl

theorem toLower_of_isDigit {c : Char} (h : c.isDigit = true) : c.toLower = c := by
  unfold Char.isDigit at h
  unfold Char.toLower
  grind

/-- Besides digits, there are a point, a mark and a sign in a numeral. -/
theorem WellFormed.mem_text (h : numeral.WellFormed) {c : Char} (hc : c ∈ numeral.text) :
    c.isDigit = true ∨ c ∈ ['.', 'e', 'E', '+', '-'] := by
  obtain ⟨hwhole, hfraction⟩ := List.forall_mem_append.1 h.isDigit
  rw [text, List.mem_append, List.mem_append] at hc
  rcases hc with (hc | hc) | hc
  · exact .inl (hwhole c hc)
  · cases hpoint : numeral.fraction with
    | none =>
      rw [hpoint] at hc
      cases hc
    | some digits =>
      rw [fractionDigits, hpoint] at hfraction
      rw [hpoint, Option.map_some, Option.getD_some, List.mem_cons] at hc
      rcases hc with rfl | hc
      · exact .inr List.mem_cons_self
      · exact .inl (hfraction c hc)
  · cases hexponent : numeral.exponent with
    | none =>
      rw [hexponent] at hc
      cases hc
    | some part =>
      have hpart := h.exponent part hexponent
      rw [hexponent, Option.map_some, Option.getD_some, ExponentPart.text, List.cons_append,
        List.mem_cons, List.mem_append] at hc
      rcases hc with rfl | hc | hc
      · rcases hpart.mark with hmark | hmark <;> rw [hmark] <;> decide
      · refine .inr ?_
        rcases hpart.sign with hsign | hsign | hsign <;> rw [hsign] at hc
        · cases hc
        · rw [List.mem_singleton.1 hc]
          decide
        · rw [List.mem_singleton.1 hc]
          decide
      · exact .inl (hpart.isDigit c hc)

/-- There is a digit in a numeral. -/
theorem WellFormed.exists_mem_text (h : numeral.WellFormed) :
    ∃ c ∈ numeral.text, c.isDigit = true := by
  obtain ⟨c, hc⟩ := List.exists_mem_of_ne_nil _ h.digits_ne_nil
  refine ⟨c, ?_, h.isDigit c hc⟩
  rw [text, List.mem_append, List.mem_append]
  rcases List.mem_append.1 hc with hwhole | hfraction
  · exact .inl (.inl hwhole)
  · refine .inl (.inr ?_)
    cases hpoint : numeral.fraction with
    | none =>
      rw [fractionDigits, hpoint] at hfraction
      cases hfraction
    | some digits =>
      rw [fractionDigits, hpoint] at hfraction
      exact List.mem_cons_of_mem _ hfraction

def names : List (List Char) :=
  ["inf".toList, "infinity".toList, "nan".toList]

/-- A text that is read as a number: a sign or none, and then a numeral or a name. -/
inductive NumberText : List Char → Prop where
  | numeral {sign : List Char} {numeral : Numeral} : IsSign sign → numeral.WellFormed →
      NumberText (sign ++ numeral.text)
  | named {sign name : List Char} : IsSign sign → name.map Char.toLower ∈ names →
      NumberText (sign ++ name)

theorem named?_isSome_iff {negative : Bool} :
    (named? negative text).isSome = true ↔ text.map Char.toLower ∈ names := by
  simp only [named?, names, Bool.or_eq_true, beq_iff_eq, List.mem_cons, List.not_mem_nil, or_false]
  split
  · rename_i hname
    exact iff_of_true rfl (by tauto)
  · split
    · rename_i hname
      exact iff_of_true rfl (by tauto)
    · refine iff_of_false Bool.false_ne_true (by tauto)

/-- There are no digits in a name. -/
theorem isDigit_of_named (h : text.map Char.toLower ∈ names) : ∀ c ∈ text, c.isDigit = false := by
  have hletters : names.all (fun name ↦ name.all fun c ↦ !c.isDigit) = true := by decide
  intro c hc
  by_contra hdigit
  rw [Bool.not_eq_false] at hdigit
  have hname := List.all_eq_true.1 hletters _ h
  have hlower := List.all_eq_true.1 hname c.toLower (List.mem_map_of_mem hc)
  rw [toLower_of_isDigit hdigit, hdigit] at hlower
  cases hlower

/-- A name starts with a letter. -/
theorem exists_eq_cons_of_named (h : text.map Char.toLower ∈ names) :
    ∃ c others, text = c :: others ∧ (c.toLower = 'i' ∨ c.toLower = 'n') := by
  cases text with
  | nil => exact absurd h (by decide)
  | cons c others =>
    refine ⟨c, others, rfl, ?_⟩
    simp only [names, List.mem_cons, List.not_mem_nil, or_false, List.map_cons] at h
    rcases h with h | h | h
    · exact .inl (List.cons.inj h).1
    · exact .inl (List.cons.inj h).1
    · exact .inr (List.cons.inj h).1

/-- A sign is split off a numeral. -/
theorem WellFormed.splitSign_append (h : numeral.WellFormed) {sign : List Char}
    (hsign : IsSign sign) :
    ExponentPart.splitSign (sign ++ numeral.text) = (sign, numeral.text) := by
  obtain ⟨c, others, htext, hc⟩ := h.exists_text_eq_cons
  refine ExponentPart.splitSign_of_isSign hsign fun first hfirst ↦ ?_
  rw [htext] at hfirst
  cases hfirst
  rcases hc with hdigit | rfl
  · exact ExponentPart.ne_sign_of_isDigit hdigit
  · decide

/-- A numeral is all that is split off its text. -/
theorem WellFormed.split?_text (h : numeral.WellFormed) :
    split? numeral.text = some (numeral, []) := by
  have happend := h.split?_append endsNumeral_nil
  rwa [List.append_nil] at happend

theorem readFloat?_numeral {sign : List Char} (hsign : IsSign sign) (h : numeral.WellFormed) :
    readFloat? (sign ++ numeral.text) = some (numeral.value.toFloat (sign == ['-'])) := by
  unfold readFloat?
  rw [h.splitSign_append hsign]
  dsimp only
  rw [h.split?_text]

/-- A sign and a numeral are read off their text. -/
theorem WellFormed.eq_of_text_eq (h : numeral.WellFormed) {other : Numeral}
    (hother : other.WellFormed) {sign otherSign : List Char} (hsign : IsSign sign)
    (hotherSign : IsSign otherSign) (htext : sign ++ numeral.text = otherSign ++ other.text) :
    sign = otherSign ∧ numeral = other := by
  have hsplit := h.splitSign_append hsign
  rw [htext, hother.splitSign_append hotherSign, Prod.mk.injEq] at hsplit
  have hnumeral := h.split?_text
  rw [← hsplit.2, hother.split?_text, Option.some.injEq, Prod.mk.injEq] at hnumeral
  exact ⟨hsplit.1.symm, hnumeral.1.symm⟩

theorem readFloat?_named {sign name : List Char} (hsign : IsSign sign)
    (hname : name.map Char.toLower ∈ names) :
    readFloat? (sign ++ name) = named? (sign == ['-']) name := by
  obtain ⟨c, others, rfl, hc⟩ := exists_eq_cons_of_named hname
  have hdigit : c.isDigit = false := isDigit_of_named hname c List.mem_cons_self
  have hother : c ≠ '.' ∧ c ≠ '+' ∧ c ≠ '-' := by
    refine ⟨?_, ?_, ?_⟩ <;>
    · rintro rfl
      exact absurd hc (by decide)
  obtain ⟨hpoint, hsigns⟩ := hother
  have hsplit : ExponentPart.splitSign (sign ++ c :: others) = (sign, c :: others) := by
    refine ExponentPart.splitSign_of_isSign hsign fun first hfirst ↦ ?_
    cases hfirst
    exact hsigns
  unfold readFloat?
  rw [hsplit]
  dsimp only
  rw [split?_cons_eq_none hdigit hpoint]

/-- The texts that are read as numbers. -/
theorem isSome_readFloat?_iff : (readFloat? text).isSome = true ↔ NumberText text := by
  constructor
  · intro h
    rw [← ExponentPart.splitSign_append text]
    have hsign := ExponentPart.isSign_splitSign text
    unfold readFloat? at h
    dsimp only at h
    split at h
    · rename_i numeral hsplit
      obtain ⟨hnumeral, hunsigned⟩ := of_split? hsplit
      rw [hunsigned, List.append_nil]
      exact .numeral hsign hnumeral
    · cases h
    · exact .named hsign (named?_isSome_iff.1 h)
  · rintro (⟨hsign, hnumeral⟩ | ⟨hsign, hname⟩)
    · rw [readFloat?_numeral hsign hnumeral]
      rfl
    · rw [readFloat?_named hsign hname]
      exact named?_isSome_iff.2 hname

end Numeral

end LineScript
