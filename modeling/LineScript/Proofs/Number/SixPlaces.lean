import LineScript.Number.SixPlaces
import LineScript.Proofs.Number.Shortest

/-!
# The text with six places

A finite number is printed as the multiple of a millionth that is nearest to it, an even one if two
are. The text is that of fixed notation with all six digits, of which zeros at the end, then a bare
point, and at last the sign of a zero are cut off: so the digits before the point stay as they are,
and the multiple can be read off the text.
-/

namespace LineScript

def signed {α : Type} [Neg α] (negative : Bool) (size : α) : α :=
  if negative then -size else size

/-- A finite number has a sign and an exact quantity. -/
def Binary64.IsExactly (x : Float) (negative : Bool) (quantity : ℚ) : Prop :=
  ∃ mantissa exponent, decode x = .finite negative mantissa exponent ∧
    quantity = signed negative ((mantissa : ℚ) * 2 ^ exponent)

/-- There is one quantity that a finite number is. -/
theorem Binary64.IsExactly.unique {x : Float} {negative otherNegative : Bool} {quantity other : ℚ}
    (h : IsExactly x negative quantity) (hother : IsExactly x otherNegative other) :
    quantity = other := by
  obtain ⟨mantissa, exponent, hdecode, rfl⟩ := h
  obtain ⟨mantissa', exponent', hdecode', rfl⟩ := hother
  rw [hdecode] at hdecode'
  cases hdecode'
  rfl

/-- A multiple of a millionth is nearest to a quantity, and even if another is just as near. -/
structure NearestMillionth (quantity : ℚ) (count : ℤ) : Prop where
  nearest : ∀ other : ℤ, |quantity - count / 10 ^ 6| ≤ |quantity - other / 10 ^ 6|
  even_of_tie : ∀ other : ℤ, other ≠ count →
    |quantity - other / 10 ^ 6| = |quantity - count / 10 ^ 6| → Even count

/-- A decimal without superfluous zeros: none in front of the digits before the point, unless zero
is all that there is, and none behind up to six digits after it. -/
structure Numeral.Canonical (numeral : Numeral) : Prop where
  wellFormed : numeral.WellFormed
  exponent : numeral.exponent = none
  whole_ne_nil : numeral.whole ≠ []
  leading : numeral.whole.head? = some '0' → numeral.whole = ['0']
  fraction : ∀ digits, numeral.fraction = some digits →
    digits ≠ [] ∧ digits.length ≤ 6 ∧ digits.getLast? ≠ some '0'

section

variable {quantity : ℚ} {count other : ℤ}

/-- Distances from multiples of a millionth are counted in millionths. -/
theorem abs_sub_millionths (quantity : ℚ) (count : ℤ) :
    |quantity - count / 10 ^ 6| = |quantity * 10 ^ 6 - count| / 10 ^ 6 := by
  have hmillion : (0 : ℚ) < 10 ^ 6 := by norm_num
  rw [eq_div_iff hmillion.ne']
  nth_rewrite 2 [← abs_of_pos hmillion]
  rw [← abs_mul, sub_mul, div_mul_cancel₀ _ hmillion.ne']

theorem NearestMillionth.within_half (h : NearestMillionth quantity count) :
    |quantity * 10 ^ 6 - count| ≤ 1 / 2 := by
  have hround := h.nearest (round (quantity * 10 ^ 6))
  rw [abs_sub_millionths, abs_sub_millionths,
    div_le_div_iff_of_pos_right (by norm_num : (0 : ℚ) < 10 ^ 6)] at hround
  exact hround.trans (abs_sub_round _)

/-- There is one multiple of a millionth that is nearest. -/
theorem NearestMillionth.unique (h : NearestMillionth quantity count)
    (hother : NearestMillionth quantity other) : count = other := by
  by_contra hne
  have htie := le_antisymm (hother.nearest count) (h.nearest other)
  have heven := h.even_of_tie other (Ne.symm hne) htie
  have hevenOther := hother.even_of_tie count hne htie.symm
  -- They are neighbours, since each is half a step away at most.
  have hapart : |(count : ℚ) - other| ≤ 1 := by
    have htriangle := abs_sub_le (count : ℚ) (quantity * 10 ^ 6) other
    rw [abs_sub_comm (count : ℚ) (quantity * 10 ^ 6)] at htriangle
    have hsum := add_le_add h.within_half hother.within_half
    exact htriangle.trans (hsum.trans_eq (by norm_num))
  have hstep : |count - other| ≤ 1 := by exact_mod_cast hapart
  rw [abs_le] at hstep
  obtain ⟨half, hhalf⟩ := heven.sub hevenOther
  omega

theorem NearestMillionth.neg (h : NearestMillionth quantity count) :
    NearestMillionth (-quantity) (-count) := by
  have hflip : ∀ n : ℤ, |-quantity - (-n : ℤ) / 10 ^ 6| = |quantity - n / 10 ^ 6| := by
    intro n
    rw [← abs_neg]
    congr 1
    push_cast
    ring
  have hback : ∀ n : ℤ, |-quantity - n / 10 ^ 6| = |quantity - (-n : ℤ) / 10 ^ 6| := by
    intro n
    rw [← hflip, neg_neg]
  constructor
  · intro other
    rw [hflip, hback]
    exact h.nearest _
  · intro other hother htie
    rw [hflip, hback] at htie
    exact (h.even_of_tie (-other) (neg_eq_iff_eq_neg.not.2 hother) htie).neg

theorem NearestMillionth.signed (h : NearestMillionth quantity count) (negative : Bool) :
    NearestMillionth (signed negative quantity) (signed negative count) := by
  cases negative with
  | false => exact h
  | true => exact h.neg

/-- The millionths that a quantity rounds to are the nearest. -/
theorem nearestMillionth_of_roundsTo {whole : ℕ} (h : RoundsTo (quantity * 10 ^ 6) whole) :
    NearestMillionth quantity whole := by
  have hmillion : (0 : ℚ) < 10 ^ 6 := by norm_num
  constructor
  · intro other
    rw [abs_sub_millionths, abs_sub_millionths, div_le_div_iff_of_pos_right hmillion]
    exact h.nearest other
  · intro other hother htie
    rw [abs_sub_millionths, abs_sub_millionths, div_left_inj' hmillion.ne'] at htie
    exact_mod_cast h.even_of_same_distance hother htie

end

namespace SixPlaces

open Binary64

variable {count other rest : ℕ} {negative : Bool}

def sixDigits (rest : ℕ) : List Char :=
  (Nat.toDigits 10 (10 ^ places + rest)).drop 1

theorem fractionDigits_eq (rest : ℕ) :
    fractionDigits rest = (sixDigits rest).rdropWhile (· == '0') :=
  rfl

theorem sixDigits_spec (hrest : rest < 10 ^ places) :
    (sixDigits rest).length = places ∧ Decimal.ofDigits (sixDigits rest) = rest := by
  obtain ⟨digits, hdigits, hspec⟩ := Decimal.exists_toDigits_eq_cons places hrest
  rw [sixDigits, hdigits]
  exact hspec

theorem isDigit_of_mem_sixDigits {c : Char} (hc : c ∈ sixDigits rest) : c.isDigit = true :=
  Nat.isDigit_of_mem_toDigits (by decide) (by decide) (List.mem_of_mem_drop hc)

theorem isDigit_of_mem_fractionDigits {c : Char} (hc : c ∈ fractionDigits rest) :
    c.isDigit = true :=
  isDigit_of_mem_sixDigits ((List.rdropWhile_prefix _ _).subset hc)

/-- The last of the digits that are left is not zero. -/
theorem getLast?_fractionDigits (rest : ℕ) : (fractionDigits rest).getLast? ≠ some '0' := by
  intro hlast
  have hne : fractionDigits rest ≠ [] := by
    intro hnil
    rw [hnil] at hlast
    cases hlast
  rw [List.getLast?_eq_some_getLast hne, Option.some.injEq] at hlast
  have hother : ¬((fractionDigits rest).getLast hne == '0') = true :=
    List.rdropWhile_last_not _ _ hne
  rw [hlast] at hother
  exact hother rfl

/-- What is left of the six digits, and the zeros that are cut off. -/
theorem exists_zeros_sixDigits (hrest : rest < 10 ^ places) : ∃ zeros,
    fractionDigits rest ++ List.replicate zeros '0' = sixDigits rest ∧
      (fractionDigits rest).length + zeros = places := by
  obtain ⟨zeros, hzeros⟩ := Decimal.exists_zeros (sixDigits rest)
  change fractionDigits rest ++ _ = _ at hzeros
  refine ⟨zeros, hzeros, ?_⟩
  have hlength := congrArg List.length hzeros
  rwa [List.length_append, List.length_replicate, (sixDigits_spec hrest).1] at hlength

def numeralOf (count : ℕ) : Numeral :=
  .plain (Nat.toDigits 10 (count / 10 ^ places)) (fractionDigits (count % 10 ^ places))

theorem ofMillionths_eq (count : ℕ) : ofMillionths count = (numeralOf count).text := by
  rw [numeralOf, Numeral.text_plain]
  unfold ofMillionths
  split
  · rename_i hnil
    rw [← Nat.pow_eq, hnil]
    rfl
  · rename_i hcons
    rw [← Nat.pow_eq, if_neg (by rwa [List.isEmpty_iff])]

/-- The numeral of a count stands for this many millionths. -/
theorem quantity_numeralOf (count : ℕ) : (numeralOf count).value.quantity = count / 10 ^ 6 := by
  have hrest : count % 10 ^ places < 10 ^ places := Nat.mod_lt _ (Nat.pow_pos (by decide))
  obtain ⟨hlength, hvalue⟩ := sixDigits_spec hrest
  obtain ⟨zeros, hzeros, hsix⟩ := exists_zeros_sixDigits hrest
  rw [numeralOf, Numeral.quantity_of_zeros rfl zeros, Numeral.fractionDigits_plain, hsix,
    List.append_assoc, hzeros, Decimal.ofDigits_append, hlength, hvalue]
  change ((Decimal.ofDigits (Nat.toDigits 10 (count / 10 ^ places)) * 10 ^ places +
    count % 10 ^ places : ℕ) : ℚ) / 10 ^ 6 = _
  rw [Decimal.ofDigits_toDigits, Nat.div_add_mod']

theorem canonical_numeralOf (count : ℕ) : (numeralOf count).Canonical where
  wellFormed := Numeral.wellFormed_plain Nat.toDigits_ne_nil
    (fun _ ↦ Nat.isDigit_of_mem_toDigits (by decide) (by decide))
    fun _ ↦ isDigit_of_mem_fractionDigits
  exponent := rfl
  whole_ne_nil := Nat.toDigits_ne_nil
  leading hzero := by
    change Nat.toDigits 10 _ = _
    rw [Decimal.eq_zero_of_head?_toDigits hzero]
    rfl
  fraction digits hdigits := by
    have hrest : count % 10 ^ places < 10 ^ places := Nat.mod_lt _ (Nat.pow_pos (by decide))
    obtain ⟨zeros, -, hsix⟩ := exists_zeros_sixDigits hrest
    unfold numeralOf Numeral.plain at hdigits
    dsimp only at hdigits
    split at hdigits
    · cases hdigits
    · rename_i hne
      cases hdigits
      rw [List.isEmpty_iff] at hne
      exact ⟨hne, Nat.le.intro hsix, getLast?_fractionDigits _⟩

/-- Different counts have different numerals. -/
theorem numeralOf_injective (h : numeralOf count = numeralOf other) : count = other := by
  have hquantity := quantity_numeralOf count
  rw [h, quantity_numeralOf, div_left_inj' (by norm_num)] at hquantity
  exact_mod_cast hquantity.symm

/-! ## The text -/

def minus (negative : Bool) : List Char :=
  if negative then ['-'] else []

theorem isSign_minus (negative : Bool) : IsSign (minus negative) := by
  cases negative with
  | false => exact .inl rfl
  | true => exact .inr (.inr rfl)

theorem minus_injective {negative other : Bool} (h : minus negative = minus other) :
    negative = other := by
  cases negative <;> cases other <;> first | rfl | cases h

def textOf (count : ℤ) : List Char :=
  minus (decide (count < 0)) ++ (numeralOf count.natAbs).text

/-- A multiple of a millionth can be read off its text. -/
theorem textOf_injective {count other : ℤ} (h : textOf count = textOf other) : count = other := by
  obtain ⟨hsign, hnumeral⟩ := (canonical_numeralOf _).wellFormed.eq_of_text_eq
    (canonical_numeralOf _).wellFormed (isSign_minus _) (isSign_minus _) h
  have hsize := numeralOf_injective hnumeral
  have hnegative : count < 0 ↔ other < 0 := decide_eq_decide.1 (minus_injective hsign)
  omega

theorem natAbs_signed (negative : Bool) (count : ℕ) :
    (signed negative (count : ℤ)).natAbs = count := by
  cases negative <;> simp [signed]

theorem signed_natAbs (count : ℤ) : signed (decide (count < 0)) (count.natAbs : ℤ) = count := by
  by_cases hnegative : count < 0
  · rw [signed, if_pos (decide_eq_true hnegative)]
    omega
  · rw [signed, if_neg (by simpa using hnegative)]
    omega

/-- The sign of a zero is left out. -/
theorem textOf_signed (negative : Bool) (count : ℕ) : textOf (signed negative (count : ℤ)) =
    minus (negative && count != 0) ++ (numeralOf count).text := by
  have hnegative : decide (signed negative (count : ℤ) < 0) = (negative && count != 0) := by
    rw [Bool.eq_iff_iff, decide_eq_true_iff, Bool.and_eq_true, bne_iff_ne]
    cases negative with
    | false => simp [signed]
    | true =>
      simp only [signed, if_true, true_and]
      omega
  rw [textOf, hnegative, natAbs_signed]

/-- The text of a finite number is that of its millionths. -/
theorem toList_render {x : Float} {mantissa : ℕ} {exponent : ℤ}
    (hdecode : decode x = .finite negative mantissa exponent) :
    (render x).toList = textOf (signed negative (millionths mantissa exponent : ℤ)) := by
  rw [textOf_signed, render, hdecode]
  dsimp only
  rw [String.toList_ofList, ofMillionths_eq]
  cases negative && millionths mantissa exponent != 0 with
  | false => rw [if_neg Bool.false_ne_true, minus, if_neg Bool.false_ne_true, List.nil_append]
  | true => rw [if_pos rfl, minus, if_pos rfl, List.singleton_append]

/-- A number rounds to its millionths. -/
theorem roundsTo_millionths (mantissa : ℕ) (exponent : ℤ) :
    RoundsTo (mantissa * 2 ^ exponent * 10 ^ 6) (millionths mantissa exponent) := by
  have hquotient : (mantissa * 2 ^ exponent * 10 ^ 6 : ℚ) =
      (mantissa * Nat.pow 2 exponent.toNat * Nat.pow 10 places : ℕ) /
        (Nat.pow 2 (-exponent).toNat : ℕ) := by
    rw [zpow_eq_div 2]
    simp only [Nat.pow_eq, places]
    push_cast
    ring
  rw [hquotient]
  exact roundsTo_roundHalfEven (Nat.pow_pos (by decide))

/-- A count of millionths in fixed notation: six digits behind the point, whatever they are, and the
sign even of a zero. -/
def fixed (negative : Bool) (count : ℕ) : List Char :=
  minus negative ++ Nat.toDigits 10 (count / 10 ^ places) ++
    '.' :: sixDigits (count % 10 ^ places)

/-- Zeros and then a point are cut off the end of a text that has a point; zero loses its sign. -/
def trim (text : List Char) : List Char :=
  let trimmed := if '.' ∈ text then (text.rdropWhile (· == '0')).rdropWhile (· == '.') else text
  if trimmed = "-0".toList then "0".toList else trimmed

/-- What is cut off behind a character that stays does not depend on what is in front of it. -/
theorem rdropWhile_append_cons {test : Char → Bool} {c : Char} (hc : ¬test c)
    (front behind : List Char) :
    (front ++ c :: behind).rdropWhile test = front ++ c :: behind.rdropWhile test := by
  induction behind using List.reverseRecOn with
  | nil => rw [List.rdropWhile_concat_neg _ _ _ hc, List.rdropWhile_nil]
  | append_singleton others last ih =>
    rw [← List.cons_append, ← List.append_assoc]
    by_cases hlast : test last
    · rw [List.rdropWhile_concat_pos _ _ _ hlast, List.rdropWhile_concat_pos _ _ _ hlast, ih]
    · rw [List.rdropWhile_concat_neg _ _ _ hlast, List.rdropWhile_concat_neg _ _ _ hlast,
        List.append_assoc, List.cons_append]

/-- No point is cut off behind a digit. -/
theorem rdropWhile_point {digits : List Char} (hdigits : ∀ c ∈ digits, c.isDigit = true)
    (hne : digits ≠ []) (front : List Char) :
    (front ++ digits).rdropWhile (· == '.') = front ++ digits := by
  obtain ⟨others, last, rfl⟩ := (List.eq_nil_or_concat' digits).resolve_left hne
  rw [← List.append_assoc]
  apply List.rdropWhile_concat_neg
  intro hpoint
  have hdigit := hdigits last (by simp)
  rw [eq_of_beq hpoint] at hdigit
  cases hdigit

/-- The zeros behind the point, and the point if nothing is left behind it, are all that is cut off:
no zero in front of the point is. -/
theorem rdropWhile_fixed (negative : Bool) (count : ℕ) :
    ((fixed negative count).rdropWhile (· == '0')).rdropWhile (· == '.') =
      minus negative ++ (numeralOf count).text := by
  have hwhole : ∀ c ∈ Nat.toDigits 10 (count / 10 ^ places), c.isDigit = true :=
    fun _ ↦ Nat.isDigit_of_mem_toDigits (by decide) (by decide)
  rw [fixed, rdropWhile_append_cons (by decide), ← fractionDigits_eq]
  rw [numeralOf, Numeral.text_plain]
  cases hfraction : fractionDigits (count % 10 ^ places) with
  | nil =>
    rw [List.rdropWhile_concat_pos _ _ _ (by rfl), rdropWhile_point hwhole Nat.toDigits_ne_nil]
    rfl
  | cons first others =>
    have hdigits : ∀ c ∈ first :: others, c.isDigit = true :=
      hfraction ▸ fun _ ↦ isDigit_of_mem_fractionDigits
    rw [List.append_cons, rdropWhile_point hdigits (List.cons_ne_nil _ _)]
    simp

/-- The text of a number is its fixed notation, trimmed. -/
theorem trim_fixed (negative : Bool) (count : ℕ) :
    trim (fixed negative count) = textOf (signed negative (count : ℤ)) := by
  have hpoint : '.' ∈ fixed negative count := by simp [fixed]
  have hminusZero : "-0".toList = minus true ++ (numeralOf 0).text := by decide +kernel
  have hzero : "0".toList = (numeralOf 0).text := by decide +kernel
  unfold trim
  dsimp only
  rw [if_pos hpoint, rdropWhile_fixed, textOf_signed]
  split
  · rename_i htext
    rw [hminusZero] at htext
    obtain ⟨-, hnumeral⟩ := (canonical_numeralOf _).wellFormed.eq_of_text_eq
      (canonical_numeralOf _).wellFormed (isSign_minus _) (isSign_minus _) htext
    rw [numeralOf_injective hnumeral, hzero, bne_self_eq_false, Bool.and_false]
    rfl
  · rename_i hother
    have hsign : (negative && count != 0) = negative := by
      cases negative with
      | false => rfl
      | true =>
        rw [Bool.true_and, bne_iff_ne]
        rintro rfl
        exact hother hminusZero.symm
    rw [hsign]

/-! ## Printing -/

/--
How a finite number is printed: as the multiple of a millionth that is nearest to it. The text is an
optional sign and a canonical decimal, which stands for the multiple, and it is what is left of the
fixed notation after trimming; the digits before the point are all those of the multiple. Another
finite number has the same text where it is nearest to the same multiple, and only there.
-/
structure Prints (x : Float) (negative : Bool) (quantity : ℚ) (count : ℤ) (numeral : Numeral) :
    Prop where
  isExactly : IsExactly x negative quantity
  nearest : NearestMillionth quantity count
  text : (render x).toList = minus (decide (count < 0)) ++ numeral.text
  canonical : numeral.Canonical
  value : signed (decide (count < 0)) numeral.value.quantity = count / 10 ^ 6
  ne_empty : render x ≠ ""
  ne_minus_zero : render x ≠ "-0"
  trimmed : (render x).toList = trim (fixed negative count.natAbs)
  whole : numeral.whole = Nat.toDigits 10 (count.natAbs / 10 ^ 6)
  alike : ∀ y otherNegative other, IsExactly y otherNegative other →
    (render y = render x ↔ NearestMillionth other count)

/-- The text of a finite number is that of the multiple that is nearest. -/
theorem exists_count {x : Float} {quantity : ℚ} (h : IsExactly x negative quantity) :
    ∃ count : ℕ, NearestMillionth quantity (signed negative (count : ℤ)) ∧
      (render x).toList = textOf (signed negative (count : ℤ)) := by
  obtain ⟨mantissa, exponent, hdecode, rfl⟩ := h
  exact ⟨_, (nearestMillionth_of_roundsTo (roundsTo_millionths mantissa exponent)).signed negative,
    toList_render hdecode⟩

theorem cast_signed (negative : Bool) (count : ℤ) :
    ((signed negative count : ℤ) : ℚ) = signed negative (count : ℚ) := by
  cases negative with
  | false => rfl
  | true => exact Int.cast_neg count

theorem signed_div (negative : Bool) (quantity divisor : ℚ) :
    signed negative (quantity / divisor) = signed negative quantity / divisor := by
  cases negative with
  | false => rfl
  | true => exact (neg_div divisor quantity).symm

theorem signed_quantity_numeralOf (count : ℤ) :
    signed (decide (count < 0)) (numeralOf count.natAbs).value.quantity = count / 10 ^ 6 := by
  rw [quantity_numeralOf, signed_div, ← Int.cast_natCast, ← cast_signed, signed_natAbs]

/-- A text of a multiple has a digit, and zero has no sign. -/
theorem textOf_ne (count : ℤ) : textOf count ≠ [] ∧ textOf count ≠ "-0".toList := by
  constructor
  · intro hnil
    obtain ⟨c, hc, -⟩ := (canonical_numeralOf count.natAbs).wellFormed.exists_mem_text
    have hmem : c ∈ textOf count := List.mem_append_right _ hc
    rw [hnil] at hmem
    cases hmem
  · intro hminusZero
    obtain ⟨hsign, hnumeral⟩ := (canonical_numeralOf _).wellFormed.eq_of_text_eq
      (canonical_numeralOf 0).wellFormed (isSign_minus _) (isSign_minus true)
      (hminusZero.trans (by decide +kernel))
    have hnegative := of_decide_eq_true (minus_injective hsign)
    have hsize := numeralOf_injective hnumeral
    omega

/-- A finite number is printed as the nearest multiple of a millionth. -/
theorem prints_nearest {x : Float} (hx : x.isFinite = true) :
    ∃ negative quantity count numeral, Prints x negative quantity count numeral := by
  obtain ⟨negative, mantissa, exponent, hdecode⟩ := exists_decode_of_isFinite hx
  have hexactly : IsExactly x negative _ := ⟨mantissa, exponent, hdecode, rfl⟩
  obtain ⟨count, hnearest, htext⟩ := exists_count hexactly
  obtain ⟨hnonempty, hminusZero⟩ := textOf_ne (signed negative (count : ℤ))
  rw [← htext] at hnonempty hminusZero
  refine ⟨negative, _, _, _, hexactly, hnearest, htext, canonical_numeralOf _,
    signed_quantity_numeralOf _, ?_, ?_, ?_, rfl, ?_⟩
  · rintro hempty
    exact hnonempty (congrArg String.toList hempty)
  · exact fun htext ↦ hminusZero (congrArg String.toList htext)
  · rw [htext, natAbs_signed, trim_fixed]
  · intro y otherNegative other hother
    obtain ⟨otherCount, hotherNearest, hotherText⟩ := exists_count hother
    constructor
    · intro halike
      rw [halike, htext] at hotherText
      rwa [textOf_injective hotherText]
    · intro hsame
      rw [← hotherNearest.unique hsame, ← hotherText] at htext
      exact String.toList_inj.1 htext.symm

theorem prints_nearest_third : (Float.ofBits 0xBFD5555555555555).isFinite = true ∧
    render (Float.ofBits 0xBFD5555555555555) = "-0.333333" ∧
    ∃ negative quantity count numeral,
      Prints (Float.ofBits 0xBFD5555555555555) negative quantity count numeral :=
  ⟨by decide +kernel, by decide +kernel, prints_nearest (by decide +kernel)⟩

end SixPlaces

end LineScript
